import AtomCompiler.Atom.Labels
import AtomCompiler.Memory.Basic

/-!
# Relocation

While a program is written its jumps have no addresses yet.  Two tables keep
what is needed to fill them in: the index of the instruction that each label
stands before, and the label that each jump goes to.

* `Relocations.define`, `Relocations.refer` — add to the tables;
* `Relocations.remove` — keeps them in step when an instruction is taken out of
  the program;
* `Relocations.resolve` — writes the addresses into the program.
-/

namespace AtomCompiler

/-- The places of labels, and the jumps that wait for them. -/
structure Relocations where
  /-- Each label with the index of the instruction after it. -/
  labels : List (String × Nat) := []
  /-- The index of each waiting jump with its label, in ascending order. -/
  references : List (Nat × String) := []
  deriving DecidableEq, Repr

namespace Relocations

/-- The index of a label. -/
def labelIndex? (relocations : Relocations) (label : String) : Option Nat :=
  relocations.labels.lookup label

/-- Places a label; a label that has a place already gets a new one. -/
def define (relocations : Relocations) (label : String) (index : Nat) : Relocations :=
  { relocations with
    labels := (label, index) :: relocations.labels.filter fun entry => entry.1 ≠ label }

/-- Places a label that must not have a place already. -/
def defineNew (relocations : Relocations) (label : String) (index : Nat) :
    Except LabelError Relocations :=
  if (relocations.labelIndex? label).isSome then .error (.duplicate label)
  else .ok (relocations.define label index)

/-- Puts a jump into its place among the waiting jumps, instead of another with
the same index. -/
def insertReference (index : Nat) (label : String) : List (Nat × String) → List (Nat × String)
  | [] => [(index, label)]
  | entry :: rest =>
    if index < entry.1 then (index, label) :: entry :: rest
    else if index = entry.1 then (index, label) :: rest
    else entry :: insertReference index label rest

/-- Lets a jump wait for a label. -/
def refer (relocations : Relocations) (index : Nat) (label : String) : Relocations :=
  { relocations with references := insertReference index label relocations.references }

/-- Whether a label stands before the instruction with the given index. -/
def isTarget (relocations : Relocations) (index : Nat) : Bool :=
  relocations.labels.any fun entry => entry.2 = index

/-- Whether a jump waits at the given index. -/
def isWaiting (relocations : Relocations) (index : Nat) : Bool :=
  relocations.references.any fun entry => entry.1 = index

/-- Where an index moves when the instruction at `place` is taken out. -/
def shift (place index : Nat) : Nat :=
  if place < index then index - 1 else index

/-- The jumps that still wait after the instruction at `place` is taken out: one
that waited there gives way to one that waits right after it. -/
def keptReferences (relocations : Relocations) (place : Nat) : List (Nat × String) :=
  relocations.references.filter fun entry =>
    entry.1 ≠ place || !relocations.isWaiting (place + 1)

/-- The tables after the instruction at `place` is taken out of the program. -/
def remove (relocations : Relocations) (place : Nat) : Relocations :=
  { labels := relocations.labels.map fun (label, index) => (label, shift place index)
    references := (relocations.keptReferences place).map fun (index, label) =>
      (shift place index, label) }

/-- The address of the instruction with the given index: a word of thirty-two
bits, so that an index beyond the words starts over. -/
def addressOf (index : Nat) : Nat :=
  wordBytes * index % 0x100000000

/-- Writes addresses into jumps, one after another; at a label without a place
it stops. -/
def patch (relocations : Relocations) :
    List (Nat × String) → List Instruction → List Instruction × Option LabelError
  | [], program => (program, none)
  | (index, label) :: rest, program =>
    match relocations.labelIndex? label with
    | some target =>
      patch relocations rest
        (program.modify index fun instruction => { instruction with address := addressOf target })
    | none => (program, some (.unmatched label))

/-- Writes the addresses of all waiting jumps, in ascending order.  The program
as far as it got, and the error that stopped it. -/
def resolve (relocations : Relocations) (program : List Instruction) :
    List Instruction × Option LabelError :=
  relocations.patch relocations.references program

/-- A label that was defined has its index. -/
theorem labelIndex?_define_self (relocations : Relocations) (label : String) (index : Nat) :
    (relocations.define label index).labelIndex? label = some index := by
  simp [labelIndex?, define]

/-- Where no jump waits at the place, all jumps go on waiting. -/
theorem keptReferences_of_not_isWaiting (relocations : Relocations) (place : Nat)
    (h : relocations.isWaiting place = false) :
    relocations.keptReferences place = relocations.references := by
  refine List.filter_eq_self.mpr fun entry hentry => ?_
  have hne : entry.1 ≠ place := by
    simpa using List.any_eq_false.mp h entry hentry
  simp [hne]

/-- The address of an instruction of a program that fits into a word is four
times its index. -/
theorem addressOf_of_lt {index : Nat} (h : index < 0x40000000) :
    addressOf index = wordBytes * index := by
  simp only [addressOf, wordBytes]
  omega

/-- Patching changes addresses and not the number of instructions, wherever it stops. -/
theorem length_patch (relocations : Relocations) (references : List (Nat × String))
    (program : List Instruction) :
    (relocations.patch references program).1.length = program.length := by
  induction references generalizing program with
  | nil => rfl
  | cons reference rest ih =>
      obtain ⟨index, label⟩ := reference
      rw [patch]
      split
      · rw [ih, List.length_modify]
      · rfl

end Relocations

end AtomCompiler
