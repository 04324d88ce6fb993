import AtomCompiler.Machine.Relocation

/-!
# Loads and stores side by side

A pass over pairs of neighbouring instructions with the same address.  A load
right before a store is dropped; a store right before a load is dropped together
with the load.  The pass looks at the same place again after it has dropped
something, so that newly formed pairs are found, and it leaves a pair alone when
a label stands between the two.

The relocation tables are kept in step.
-/

namespace AtomCompiler

/-- Whether an instruction with the first operation stands right before one with
the second, for the same address and with no label in between. -/
def isPair (relocations : Relocations) (index : Nat) (operation₁ operation₂ : Operation)
    (first second : Instruction) : Bool :=
  first.operation = operation₁ && second.operation = operation₂
    && first.address = second.address && !relocations.isTarget (index + 1)

/-- What is left of a program from the instruction with the given index on, and
the tables that belong to it. -/
def peepholeFrom (index : Nat) (relocations : Relocations) :
    List Instruction → List Instruction × Relocations
  | first :: second :: rest =>
    if isPair relocations index .load .store first second then
      peepholeFrom index (relocations.remove index) (second :: rest)
    else if isPair relocations index .store .load first second then
      peepholeFrom index ((relocations.remove (index + 1)).remove index) rest
    else
      let (kept, tables) := peepholeFrom (index + 1) relocations (second :: rest)
      (first :: kept, tables)
  | program => (program, relocations)
termination_by program => program.length

/-- Drops redundant loads and stores from a program. -/
def peephole (program : List Instruction) (relocations : Relocations) :
    List Instruction × Relocations :=
  peepholeFrom 0 relocations program

/-- How many instructions are dropped from the instruction with the given index on:
one for each load and two for each store and load that are found side by side. -/
def peepholeDropsFrom (index : Nat) (relocations : Relocations) : List Instruction → Nat
  | first :: second :: rest =>
    if isPair relocations index .load .store first second then
      peepholeDropsFrom index (relocations.remove index) (second :: rest) + 1
    else if isPair relocations index .store .load first second then
      peepholeDropsFrom index ((relocations.remove (index + 1)).remove index) rest + 2
    else peepholeDropsFrom (index + 1) relocations (second :: rest)
  | _ => 0
termination_by program => program.length

/-- How many redundant loads and stores are dropped from a program. -/
def peepholeDrops (program : List Instruction) (relocations : Relocations) : Nat :=
  peepholeDropsFrom 0 relocations program

/-- Nothing is added or moved. -/
theorem peepholeFrom_sublist (index : Nat) (relocations : Relocations)
    (program : List Instruction) : (peepholeFrom index relocations program).1.Sublist program := by
  fun_induction peepholeFrom index relocations program with
  | case1 index relocations first second rest h ih => exact ih.cons first
  | case2 index relocations first second rest h₁ h₂ ih => exact (ih.cons second).cons first
  | case3 index relocations first second rest h₁ h₂ kept tables heq ih =>
      rw [heq] at ih
      exact ih.cons_cons first
  | case4 => exact List.Sublist.refl _

end AtomCompiler
