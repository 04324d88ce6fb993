import AtomCompiler.Number.Numeral

/-!
# Atoms

A compiled program is a list of atoms: three-address code with labels.  Control
falls through from one atom to the next, except that

* a `test` goes on when its comparison holds and jumps to its label when it does
  not,
* a `jump` always jumps,
* a `label` does nothing.

Falling off the end of the list stops the program.  The operands of an atom are
texts: a text that looks like a number is a literal, any other is the name of a
variable, and a variable that was never assigned is zero.
-/

namespace AtomCompiler

/-- The four operations on numbers. -/
inductive Arithmetic where
  | add
  | subtract
  | multiply
  | divide
  deriving DecidableEq, Repr

namespace Arithmetic

/-- The result of an operation; dividing by zero has none. -/
def result? : Arithmetic → Float → Float → Option Float
  | add, left, right => some (left + right)
  | subtract, left, right => some (left - right)
  | multiply, left, right => some (left * right)
  | divide, left, right => if right == 0 then none else some (left / right)

end Arithmetic

/-- A way to compare two numbers.  `always` holds of any two. -/
inductive Comparison where
  | always
  | notEqual
  | greaterOrEqual
  | lessOrEqual
  | greater
  | less
  | equal
  deriving DecidableEq, Repr

namespace Comparison

/-- All comparisons, in the order of their codes. -/
def all : List Comparison :=
  [always, notEqual, greaterOrEqual, lessOrEqual, greater, less, equal]

/-- The number that stands for a comparison in atoms and instructions. -/
def code : Comparison → Nat
  | always => 0
  | notEqual => 1
  | greaterOrEqual => 2
  | lessOrEqual => 3
  | greater => 4
  | less => 5
  | equal => 6

/-- The comparison with the given code. -/
def ofCode? (code : Nat) : Option Comparison := all[code]?

/-- Whether a comparison holds of two numbers. -/
def holds : Comparison → Float → Float → Bool
  | always, _, _ => true
  | notEqual, left, right => left != right
  | greaterOrEqual, left, right => right ≤ left
  | lessOrEqual, left, right => left ≤ right
  | greater, left, right => right < left
  | less, left, right => left < right
  | equal, left, right => left == right

/-- The comparison that asks for the opposite; nothing is the opposite of
`always`. -/
def opposite? : Comparison → Option Comparison
  | always => none
  | notEqual => some equal
  | greaterOrEqual => some less
  | lessOrEqual => some greater
  | greater => some lessOrEqual
  | less => some greaterOrEqual
  | equal => some notEqual

/-- The sign of a comparison. -/
def symbol : Comparison → String
  | always => "*"
  | notEqual => "!="
  | greaterOrEqual => ">="
  | lessOrEqual => "<="
  | greater => ">"
  | less => "<"
  | equal => "=="

/-- The codes of comparisons fit into their field. -/
theorem code_lt (comparison : Comparison) : comparison.code < 7 := by
  cases comparison <;> decide

/-- **Codes are faithful.**  A number is the code of a comparison exactly when
it reads as that comparison. -/
theorem ofCode?_eq_some_iff {n : Nat} {comparison : Comparison} :
    ofCode? n = some comparison ↔ n = comparison.code := by
  constructor
  · intro h
    obtain ⟨hn, -⟩ := List.getElem?_eq_some_iff.mp h
    have hn : n < 7 := hn
    have : ∀ m < 7, ofCode? m = some comparison → m = comparison.code := by
      cases comparison <;> decide
    exact this n hn h
  · rintro rfl
    cases comparison <;> rfl

end Comparison

/-- The kinds of atoms. -/
inductive Opcode where
  | arithmetic (operation : Arithmetic)
  | negate
  | move
  | test
  | jump
  | label
  deriving DecidableEq, Repr

namespace Opcode

/-- All kinds of atoms. -/
def all : List Opcode :=
  [arithmetic .add, arithmetic .subtract, arithmetic .multiply, arithmetic .divide,
    negate, move, test, jump, label]

/-- The name at the head of an atom's line. -/
def name : Opcode → String
  | arithmetic .add => "ADD"
  | arithmetic .subtract => "SUB"
  | arithmetic .multiply => "MUL"
  | arithmetic .divide => "DIV"
  | negate => "NEG"
  | move => "MOV"
  | test => "TST"
  | jump => "JMP"
  | label => "LBL"

/-- How many fields follow the name. -/
def arity : Opcode → Nat
  | arithmetic _ => 3
  | negate => 2
  | move => 2
  | test => 4
  | jump => 1
  | label => 1

/-- The kind of atom with the given name, in letters of either case. -/
def ofName? (text : String) : Option Opcode :=
  all.find? fun opcode => opcode.name.toList = text.toList.map Char.toUpper

end Opcode

/-- One step of a compiled program. -/
inductive Atom where
  /-- Combines two operands into a variable. -/
  | arithmetic (operation : Arithmetic) (left right result : String)
  /-- Puts the negated operand into a variable. -/
  | negate (source result : String)
  /-- Copies an operand into a variable. -/
  | move (source result : String)
  /-- Jumps unless the comparison holds. -/
  | test (left right : String) (comparison : Comparison) (target : String)
  /-- Jumps. -/
  | jump (target : String)
  /-- A place to jump to. -/
  | label (name : String)
  deriving DecidableEq, Repr

namespace Atom

/-- The kind of an atom. -/
def opcode : Atom → Opcode
  | arithmetic operation _ _ _ => .arithmetic operation
  | negate _ _ => .negate
  | move _ _ => .move
  | test _ _ _ _ => .test
  | jump _ => .jump
  | label _ => .label

/-- The variable that an atom assigns. -/
def assigned? : Atom → Option String
  | arithmetic _ _ _ result => some result
  | negate _ result => some result
  | move _ result => some result
  | _ => none

/-- The label that an atom may jump to. -/
def jumpTarget? : Atom → Option String
  | test _ _ _ target => some target
  | jump target => some target
  | _ => none

/-- The label that an atom defines. -/
def label? : Atom → Option String
  | label name => some name
  | _ => none

end Atom

/-- Whether an operand is a literal: a decimal digit, or one right after a minus
sign. -/
def isLiteral (operand : String) : Bool :=
  match operand.toList with
  | '-' :: c :: _ => c.isDigit
  | c :: _ => c.isDigit
  | [] => false

/-- The labels that a list of atoms defines, in order. -/
def labelsOf (atoms : List Atom) : List String :=
  atoms.filterMap Atom.label?

/-- The labels that a list of atoms may jump to, in order. -/
def jumpTargetsOf (atoms : List Atom) : List String :=
  atoms.filterMap Atom.jumpTarget?

/-- The variables that a list of atoms assigns, in order. -/
def assignedOf (atoms : List Atom) : List String :=
  atoms.filterMap Atom.assigned?

end AtomCompiler
