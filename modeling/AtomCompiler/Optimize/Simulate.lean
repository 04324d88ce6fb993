import AtomCompiler.Optimize.Values

/-!
# Running a loop ahead of time

A loop whose condition holds when it is entered can be run on the known values,
atom by atom, to learn the values after it.  The run is given up when an operand
is unknown, a literal is no number, a division is by zero, a jump leaves the
loop, or the loop has not ended after `simulationSteps` atoms.
-/

namespace AtomCompiler

/-- How many atoms are run before a loop is given up. -/
def simulationSteps : Nat := 10000

/-- The place of a label in a list of atoms, the last one if there are several. -/
def lastLabel? (name : String) : List Atom → Option Nat
  | [] => none
  | atom :: rest =>
    match lastLabel? name rest with
    | some place => some (place + 1)
    | none => if atom.label? = some name then some 0 else none

namespace Values

/-- Runs one atom of a loop: the values after it and the place to go on from. -/
def simulateAtom? (code : List Atom) (values : Values) (place : Nat) : Atom → Option (Values × Nat)
  | .test left right comparison target => do
    if ← values.outcome? left comparison right then return (values, place + 1)
    else return (values, ← lastLabel? target code)
  | .jump target => do
    return (values, ← lastLabel? target code)
  | .label _ => some (values, place + 1)
  | .arithmetic operation left right result => do
    let value ← values.assigned? (.arithmetic operation left right result)
    return (values.set result (some value), place + 1)
  | .negate source result => do
    let value ← values.assigned? (.negate source result)
    return (values.set result (some value), place + 1)
  | .move source result => do
    let value ← values.assigned? (.move source result)
    return (values.set result (some value), place + 1)

/-- Runs a loop from a place until its last atom is reached, for at most the
given number of atoms. -/
def simulateFrom? (code : List Atom) : Nat → Values → Nat → Option Values
  | 0, _, _ => none
  | steps + 1, values, place =>
    if code.length ≤ place + 1 then some values
    else do
      let atom ← code[place]?
      let (values, place) ← values.simulateAtom? code place atom
      simulateFrom? code steps values place

/-- The values after a loop that is given from its first label to its last. -/
def simulate? (values : Values) (code : List Atom) : Option Values :=
  simulateFrom? code simulationSteps values 0

end Values

end AtomCompiler
