import AtomCompiler.Atom.Labels
import AtomCompiler.Text.Blank
import AtomCompiler.Text.Lines

/-!
# Atom listings

Atoms as text, one to a line: the name of the atom and its fields, each after a
comma and a space.

    MOV, 5, x
    LBL, before_while_1
    TST, x, 10, 5, after_while_1

Reading is a little freer than writing.  Blank lines and blanks at the end of a
line do not matter, names may be in letters of either case, and the code of a
comparison may have a plus sign and leading zeros.  A listing is read only if
its labels are in order.
-/

namespace AtomCompiler

/-- What can be wrong with an atom listing.  Lines are counted from one. -/
inductive ListingError where
  | unknownOpcode (line : Nat) (name : String)
  | wrongArity (line : Nat) (opcode : Opcode) (found : Nat)
  | badComparison (line : Nat) (code : String)
  | emptyField (line : Nat)
  | badLabels (error : LabelError)
  deriving DecidableEq, Repr

/-- The wording of a listing error. -/
def ListingError.message : ListingError → String
  | unknownOpcode line name => s!"line {line}: unknown opcode `{name}`"
  | wrongArity line opcode found =>
    s!"line {line}: `{opcode.name}` takes {opcode.arity} fields, found {found}"
  | badComparison line code => s!"line {line}: bad comparison code `{code}`"
  | emptyField line => s!"line {line}: empty field"
  | badLabels error => error.message

/-- The fields of an atom's line, after its name. -/
def Atom.fields : Atom → List String
  | arithmetic _ left right result => [left, right, result]
  | negate source result => [source, result]
  | move source result => [source, result]
  | test left right comparison target => [left, right, toString comparison.code, target]
  | jump target => [target]
  | label name => [name]

/-- The line of an atom. -/
def Atom.describe (atom : Atom) : String :=
  ", ".intercalate (atom.opcode.name :: atom.fields)

/-- A comparison by the digits of its code, after an optional plus sign. -/
def Comparison.read? (text : String) : Option Comparison :=
  let digits := match text.toList with
    | '+' :: rest => rest
    | rest => rest
  (Text.readDecimal? digits).bind ofCode?

namespace Listing

/-- Cuts a line wherever a comma and a space stand. -/
def splitFields : List Char → List (List Char)
  | [] => [[]]
  | ',' :: ' ' :: rest => [] :: splitFields rest
  | c :: rest =>
    match splitFields rest with
    | [] => [[c]]
    | field :: more => (c :: field) :: more

/-- An atom whose fields must not be empty. -/
def filled (line : Nat) (fields : List String) (atom : Atom) : Except ListingError Atom :=
  if "" ∈ fields then .error (.emptyField line) else .ok atom

/-- The atom of the given kind with the given fields.  A wrong number of fields
is reported first, then an empty field, then a bad comparison. -/
def readFields (line : Nat) (opcode : Opcode) (fields : List String) : Except ListingError Atom :=
  match opcode, fields with
  | .arithmetic operation, [left, right, result] =>
    filled line fields (.arithmetic operation left right result)
  | .negate, [source, result] => filled line fields (.negate source result)
  | .move, [source, result] => filled line fields (.move source result)
  | .test, [left, right, code, target] =>
    match Comparison.read? code with
    | some comparison => filled line fields (.test left right comparison target)
    | none =>
      if "" ∈ fields then .error (.emptyField line) else .error (.badComparison line code)
  | .jump, [target] => filled line fields (.jump target)
  | .label, [name] => filled line fields (.label name)
  | _, _ => .error (.wrongArity line opcode fields.length)

/-- The atom on a line. -/
def readLine (line : Nat) (text : List Char) : Except ListingError Atom :=
  match (splitFields text).map String.ofList with
  | [] => .error (.unknownOpcode line "")
  | name :: fields =>
    match Opcode.ofName? name with
    | some opcode => readFields line opcode fields
    | none => .error (.unknownOpcode line name)

/-- The lines of a text that hold an atom, without trailing blanks, each with
its number. -/
def numberedLines (text : String) : List (Nat × List Char) :=
  ((Text.lines text.toList).zipIdx 1).filterMap fun (line, number) =>
    if line.all Text.isBlank then none else some (number, Text.trimRight line)

/-- Reads a listing. -/
def read (text : String) : Except ListingError (List Atom) := do
  let atoms ← (numberedLines text).mapM fun (number, line) => readLine number line
  match checkLabels atoms with
  | .ok () => .ok atoms
  | .error error => .error (.badLabels error)

/-- Writes a listing. -/
def write (atoms : List Atom) : String :=
  String.join (atoms.map fun atom => atom.describe ++ "\n")

end Listing

end AtomCompiler
