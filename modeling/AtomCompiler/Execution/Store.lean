import AtomCompiler.Atom.Basic

/-!
# Stores

A store gives every name a number.  What a program does with operands and
results is the same for statements, for atoms and for the machine; only three
things are left open, and a `Convention` settles them: the quotient of a
division by zero, the value of a literal that is no number, and how a number is
negated.
-/

namespace AtomCompiler

/-- The value of every variable. -/
abbrev Store := String → Float

namespace Store

/-- Every variable is zero. -/
def zero : Store := fun _ => 0

/-- The store with one variable changed. -/
def set (store : Store) (name : String) (value : Float) : Store :=
  fun other => if other = name then value else store other

/-- A variable that was set has its new value. -/
@[simp] theorem set_self (store : Store) (name : String) (value : Float) :
    store.set name value name = value := by
  simp [set]

/-- All other variables keep theirs. -/
@[simp] theorem set_of_ne {name other : String} (h : other ≠ name) (store : Store) (value : Float) :
    store.set name value other = store other := by
  simp [set, h]

end Store

/-- What is left open about arithmetic.  The quotient of a division by zero may depend
on both operands. -/
structure Convention where
  divisionByZero : Float → Float → Float
  badLiteral : Float
  negate : Float → Float

namespace Convention

/-- The number of a literal. -/
def literal (convention : Convention) (text : String) : Float :=
  (Numeral.value? text).getD convention.badLiteral

/-- The value of an operand. -/
def value (convention : Convention) (store : Store) (operand : String) : Float :=
  if isLiteral operand then convention.literal operand else store operand

/-- The result of an operation. -/
def result (convention : Convention) (operation : Arithmetic) (left right : Float) : Float :=
  (operation.result? left right).getD (convention.divisionByZero left right)

/-- The quotient of floating-point numbers also where the divisor is zero; a literal that
is no number is zero. -/
def floating (negate : Float → Float) : Convention where
  divisionByZero left right := left / right
  badLiteral := 0
  negate

/-- The convention of a machine with floating-point numbers: it cannot negate a number, and
subtracts it from zero. -/
def machine : Convention := floating fun number => 0 - number

end Convention

end AtomCompiler
