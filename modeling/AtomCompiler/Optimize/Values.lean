import AtomCompiler.Atom.Basic
import Std.Data.TreeMap

/-!
# Known values of variables

What is known about the variables at one point of a program: a variable has a
known value, or it was assigned in a way that leaves its value unknown.  A
variable without a record has never been assigned and is zero.
-/

namespace AtomCompiler

/-- What is known about variables. -/
structure Values where
  record : Std.TreeMap String (Option Float) := {}

namespace Values

/-- The value of an operand, if it is known: a literal has its own, a variable
the recorded one. -/
def value? (values : Values) (operand : String) : Option Float :=
  if isLiteral operand then Numeral.value? operand
  else values.record.getD operand (some 0)

/-- Records a value for a variable, or that its value is unknown. -/
def set (values : Values) (name : String) (value : Option Float) : Values :=
  ⟨values.record.insert name value⟩

/-- Records that the values of some variables are unknown. -/
def forget (values : Values) (names : List String) : Values :=
  names.foldl (fun known name => known.set name none) values

/-- The value that an atom assigns, if it can be computed. -/
def assigned? (values : Values) : Atom → Option Float
  | .arithmetic operation left right _ => do
    let left ← values.value? left
    let right ← values.value? right
    operation.result? left right
  | .negate source _ => (values.value? source).map fun value => -value
  | .move source _ => values.value? source
  | _ => none

/-- Whether a comparison of two operands holds, if that is known. -/
def outcome? (values : Values) (left : String) (comparison : Comparison) (right : String) :
    Option Bool := do
  let left ← values.value? left
  let right ← values.value? right
  return comparison.holds left right

/-- The value of a literal does not depend on what is known. -/
theorem value?_of_isLiteral {operand : String} (h : isLiteral operand = true) (values : Values) :
    values.value? operand = Numeral.value? operand := by
  simp [value?, h]

/-- A variable has the value that was recorded last. -/
theorem value?_set_self {name : String} (h : isLiteral name = false) (values : Values)
    (value : Option Float) : (values.set name value).value? name = value := by
  simp [value?, set, h]

/-- Recording a variable changes no other operand. -/
theorem value?_set_of_ne {name operand : String} (h : name ≠ operand) (values : Values)
    (value : Option Float) : (values.set name value).value? operand = values.value? operand := by
  simp [value?, set, Std.TreeMap.getD_insert, h]

end Values

end AtomCompiler
