import AtomCompiler.Machine.Emit
import AtomCompiler.Proofs.Layout
import AtomCompiler.Proofs.Parsing

/-!
# What emission writes

Emission is one pass over the atoms that allocates cells, appends instructions
and notes labels and jumps, and a second one that fills in addresses.  Here the
outcome is said at once: the instructions of each atom, given the cells of all
texts and the places of all labels, one atom after another.

* `Atom.code` — the instructions of an atom;
* `Emission.wroteAtom` — what emission does at an atom;
* `Emission.wrote_atoms` — what it has done after a list of atoms;
* `Relocations.patch_code` — resolution fills in the address of every jump;
* `emitted_of_emit` — the memory of an emission that succeeds.
-/

namespace AtomCompiler

/-! ## Cells -/

/-- The bits that the cell of a text begins with. -/
def IsInitial (text : String) (bits : UInt64) : Prop :=
  if isLiteral text then Numeral.bits? text = some bits else bits = 0

namespace Memory

/-- Every text that has a cell keeps it. -/
def Extends (memory later : Memory) : Prop :=
  ∀ text slot, memory.slot? text = some slot → later.slot? text = some slot

/-- The cell of a text is its own, and begins with the number that it should. -/
def Stocked (memory : Memory) : Prop :=
  ∀ text slot, memory.slot? text = some slot →
    ∃ bits, memory.cells[slot]? = some ⟨text, bits⟩ ∧ IsInitial text bits

/-- The address of the cell of a text. -/
def cellOf (memory : Memory) (text : String) : Nat :=
  cellAddress ((memory.slot? text).getD 0)

variable {memory next later : Memory} {text : String} {bits : UInt64} {address slot : Nat}

theorem Extends.refl (memory : Memory) : memory.Extends memory :=
  fun _ _ h => h

theorem Extends.trans (h₁ : memory.Extends next) (h₂ : next.Extends later) :
    memory.Extends later :=
  fun text slot h => h₂ text slot (h₁ text slot h)

/-- The cell of a text that has a slot is at the address of the slot. -/
theorem cellOf_eq (h : memory.slot? text = some slot) : memory.cellOf text = cellAddress slot := by
  rw [cellOf, h]
  rfl

theorem stocked_empty : Stocked {} := by
  intro text slot h
  simp [slot?] at h

/-- What it means that a text has been given a cell. -/
structure Allocated (memory next : Memory) (text : String) (address : Nat) : Prop where
  program : next.program = memory.program
  grows : memory.Extends next
  slot : ∃ slot, next.slot? text = some slot ∧ address = cellAddress slot

/-- The text of a new cell has the next slot, and all others keep theirs. -/
theorem slot?_addCell (memory : Memory) (name other : String) (initial : UInt64) :
    (memory.addCell name initial).slot? other =
      if name = other then some memory.cells.size else memory.slot? other := by
  simp only [slot?, addCell, Std.TreeMap.getElem?_insert, Std.compare_eq_iff_eq]

/-- A text that was allocated has a slot, and memory has only grown: the text had a slot before,
or a new cell was added for it. -/
theorem allocated_allocate (h : memory.allocate text bits = (.ok address, next)) :
    Allocated memory next text address := by
  unfold allocate at h
  split at h
  · next slot hslot =>
      obtain ⟨h₁, rfl⟩ := Prod.mk.inj h
      exact ⟨rfl, Extends.refl _, slot, hslot, (Except.ok.inj h₁).symm⟩
  · next hnone =>
      split at h
      · obtain ⟨h₁, rfl⟩ := Prod.mk.inj h
        refine ⟨rfl, ?_, memory.cells.size, ?_, (Except.ok.inj h₁).symm⟩
        · intro other slot hother
          have hne : text ≠ other := fun heq => by simp [← heq, hnone] at hother
          rw [slot?_addCell, if_neg hne, hother]
        · rw [slot?_addCell, if_pos rfl]
      · cases h

/-- **Allocation keeps every cell its own,** as long as a cell begins with the
number it should. -/
theorem Stocked.allocate (hstocked : memory.Stocked) (hinitial : IsInitial text bits)
    (h : memory.allocate text bits = (.ok address, next)) : next.Stocked := by
  unfold Memory.allocate at h
  split at h
  · obtain ⟨-, rfl⟩ := Prod.mk.inj h
    exact hstocked
  · next hnone =>
      split at h
      · obtain ⟨-, rfl⟩ := Prod.mk.inj h
        intro other slot hslot
        rw [slot?_addCell] at hslot
        split at hslot
        · next heq =>
            obtain rfl := Option.some.inj hslot
            subst heq
            exact ⟨bits, by simp [addCell], hinitial⟩
        · obtain ⟨known, hcell, hknown⟩ := hstocked other slot hslot
          refine ⟨known, ?_, hknown⟩
          have hlt : slot < memory.cells.size := by
            rw [Array.getElem?_eq_some_iff] at hcell
            exact hcell.1
          simp only [addCell]
          rw [Array.getElem?_push_lt hlt, ← Array.getElem?_eq_getElem hlt, hcell]
      · cases h

end Memory

/-! ## Parts of an emission -/

namespace Emission

variable {emission next : Emission} {text name : String} {address : Nat}

/-- A change of memory is the step on memory, and leaves labels and references as they are. -/
theorem change_eq_ok {α : Type} {step : Memory → Except MemoryError α × Memory} {value : α}
    (h : emission.change step = .ok (value, next)) :
    step emission.memory = (.ok value, next.memory) ∧ next.relocations = emission.relocations := by
  obtain ⟨memory, relocations⟩ := emission
  simp only [change] at h
  split at h
  · next found after hstep =>
      obtain ⟨rfl, rfl⟩ := Prod.mk.inj (Except.ok.inj h)
      exact ⟨hstep, rfl⟩
  · cases h

/-- A text is given a cell while nothing is written.  If it is a variable, or if it
is not used as one, its cell begins with the number that it should. -/
structure Allocated (emission next : Emission) (text : String) (address : Nat)
    (asVariable : Bool) : Prop where
  memory : emission.memory.Allocated next.memory text address
  relocations : next.relocations = emission.relocations
  stocked : (asVariable = true → isLiteral text = false) → emission.memory.Stocked →
    next.memory.Stocked

/-- A literal that was allocated has a cell. -/
theorem allocated_literal (h : emission.change (fun memory => memory.allocateLiteral text) =
    .ok (address, next)) (hliteral : isLiteral text = true) :
    emission.Allocated next text address false := by
  obtain ⟨hstep, hrelocations⟩ := change_eq_ok h
  simp only [Memory.allocateLiteral] at hstep
  split at hstep
  · next bits hbits =>
      refine ⟨Memory.allocated_allocate hstep, hrelocations, fun _ hstocked => ?_⟩
      refine hstocked.allocate ?_ hstep
      rw [IsInitial, if_pos hliteral]
      exact hbits
  · cases hstep

/-- A result that was allocated has the cell of a variable. -/
theorem allocated_result (h : emission.result name = .ok (address, next)) :
    emission.Allocated next name address true := by
  obtain ⟨hstep, hrelocations⟩ := change_eq_ok h
  refine ⟨Memory.allocated_allocate hstep, hrelocations, fun hname hstocked => ?_⟩
  refine hstocked.allocate ?_ hstep
  simp [IsInitial, hname rfl]

/-- An operand that was allocated has a cell, as a literal or as a variable. -/
theorem allocated_operand (h : emission.operand text = .ok (address, next)) :
    emission.Allocated next text address false := by
  by_cases hliteral : isLiteral text
  · refine allocated_literal ?_ hliteral
    simpa [operand, Memory.allocateOperand, hliteral] using h
  · have hresult : emission.result text = .ok (address, next) := by
      simpa [operand, result, Memory.allocateOperand, hliteral] using h
    have hallocated := allocated_result hresult
    exact ⟨hallocated.memory, hallocated.relocations,
      fun _ => hallocated.stocked fun _ => Bool.eq_false_iff.mpr hliteral⟩

/-- The zero of a negation or a jump is an ordinary literal. -/
theorem allocated_zero (h : emission.zero = .ok (address, next)) :
    emission.Allocated next "0" address false :=
  allocated_literal h (by decide)

/-- An operand may be a literal. -/
theorem Allocated.stocked_operand (h : emission.Allocated next text address false)
    (hstocked : emission.memory.Stocked) : next.memory.Stocked :=
  h.stocked (fun hfalse => by cases hfalse) hstocked

/-- The emission with one more instruction. -/
def append (emission : Emission) (instruction : Instruction) : Emission :=
  ⟨{ emission.memory with program := emission.memory.program ++ [instruction] },
    emission.relocations⟩

/-- An instruction that was pushed is the last one, and there was room for it. -/
theorem push_eq_ok {instruction : Instruction} {index : Nat}
    (h : emission.push instruction = .ok (index, next)) :
    index = emission.memory.program.length ∧ index < programBytes / wordBytes ∧
      next = emission.append instruction := by
  obtain ⟨hstep, hrelocations⟩ := change_eq_ok h
  unfold Memory.push at hstep
  split at hstep
  · next hlt =>
      obtain ⟨h₁, h₂⟩ := Prod.mk.inj hstep
      obtain rfl := Except.ok.inj h₁
      refine ⟨rfl, hlt, ?_⟩
      obtain ⟨memory, relocations⟩ := next
      simp only [append, Emission.mk.injEq]
      exact ⟨h₂.symm, hrelocations⟩
  · cases hstep

/-- An instruction that was written is the last one, and there was room for it. -/
theorem write_eq_ok {operation : Operation} (h : emission.write operation address = .ok next) :
    emission.memory.program.length < programBytes / wordBytes ∧
      next = emission.append { operation, address } := by
  obtain ⟨⟨index, after⟩, hpush, h⟩ := bind_eq_ok h
  obtain ⟨rfl, hlt, rfl⟩ := push_eq_ok hpush
  exact ⟨hlt, (Except.ok.inj h).symm⟩

/-- A conditional jump is a comparison and a jump, which refers to its label until the label is
known. -/
theorem jumpIf_eq_ok {comparison : Comparison} {label : String}
    (h : emission.jumpIf comparison address label = .ok next) :
    emission.memory.program.length + 1 < programBytes / wordBytes ∧
      next.memory = ((emission.append (.compare comparison address)).append .jump).memory ∧
      next.relocations =
        emission.relocations.refer (emission.memory.program.length + 1) label := by
  obtain ⟨⟨index, middle⟩, hcompare, h⟩ := bind_eq_ok h
  obtain ⟨⟨index', after⟩, hjump, h⟩ := bind_eq_ok h
  obtain ⟨rfl, -, rfl⟩ := push_eq_ok hcompare
  obtain ⟨rfl, hlt, rfl⟩ := push_eq_ok hjump
  obtain rfl := Except.ok.inj h
  refine ⟨by simpa [append] using hlt, rfl, ?_⟩
  simp [append]

@[simp] theorem program_append (emission : Emission) (instruction : Instruction) :
    (emission.append instruction).memory.program = emission.memory.program ++ [instruction] := rfl

@[simp] theorem slot?_append (emission : Emission) (instruction : Instruction) (text : String) :
    (emission.append instruction).memory.slot? text = emission.memory.slot? text := rfl

@[simp] theorem relocations_append (emission : Emission) (instruction : Instruction) :
    (emission.append instruction).relocations = emission.relocations := rfl

end Emission

/-! ## The code of an atom -/

namespace Atom

/-- How many instructions an atom takes. -/
def words : Atom → Nat
  | arithmetic _ _ _ _ => 3
  | negate _ _ => 3
  | move _ _ => 2
  | test _ _ comparison _ => if comparison.opposite?.isSome then 3 else 0
  | jump _ => 2
  | label _ => 0

/-- The texts that an atom gives cells to. -/
def texts : Atom → List String
  | arithmetic _ left right result => [left, right, result]
  | negate source result => ["0", source, result]
  | move source result => if source = "0" then [result] else [source, result]
  | test left right _ _ => [left, right]
  | jump _ => ["0"]
  | label _ => []

/-- The instructions of an atom, given the address of the cell of each text and
the index of the instruction that each label stands before. -/
def code (cellOf goal : String → Nat) : Atom → List Instruction
  | arithmetic operation left right result =>
    [{ operation := .load, address := cellOf left },
      { operation := .arithmetic operation, address := cellOf right },
      { operation := .store, address := cellOf result }]
  | negate source result =>
    [{ operation := .load, address := cellOf "0" },
      { operation := .arithmetic .subtract, address := cellOf source },
      { operation := .store, address := cellOf result }]
  | move source result =>
    [if source = "0" then { operation := .clear }
      else { operation := .load, address := cellOf source },
      { operation := .store, address := cellOf result }]
  | test left right comparison target =>
    match comparison.opposite? with
    | some opposite =>
      [{ operation := .load, address := cellOf left }, .compare opposite (cellOf right),
        { Instruction.jump with address := Relocations.addressOf (goal target) }]
    | none => []
  | jump target =>
    [.compare .always (cellOf "0"),
      { Instruction.jump with address := Relocations.addressOf (goal target) }]
  | label _ => []

/-- The jump among the instructions of an atom that begin at the given index, and
the label it goes to. -/
def reference? (index : Nat) : Atom → Option (Nat × String)
  | test _ _ comparison target =>
    if comparison.opposite?.isSome then some (index + 2, target) else none
  | jump target => some (index + 1, target)
  | _ => none

/-- The tables after the instructions of an atom have been written from the given
index on. -/
def relocate (index : Nat) (relocations : Relocations) : Atom → Relocations
  | label name => relocations.define name index
  | atom => match atom.reference? index with
    | some (place, target) => relocations.refer place target
    | none => relocations

/-- The code of an atom takes up as many words as are counted for it. -/
@[simp] theorem length_code (cellOf goal : String → Nat) (atom : Atom) :
    (atom.code cellOf goal).length = atom.words := by
  cases atom with
  | test left right comparison target =>
      cases h : comparison.opposite? <;> simp [code, words, h]
  | _ => rfl

end Atom

/-! ## One atom -/

namespace Emission

variable {emission next last : Emission} {text : String} {address : Nat} {final : Memory}
  {asVariable : Bool}

/-- The address that a text was given is the address of its cell ever after. -/
theorem Allocated.cellOf_eq (h : emission.Allocated next text address asVariable)
    (hfinal : next.memory.Extends final) : final.cellOf text = address := by
  obtain ⟨slot, hslot, rfl⟩ := h.memory.slot
  exact Memory.cellOf_eq (hfinal text slot hslot)

/-- A text that was allocated still has a slot in the end. -/
theorem Allocated.isSome (h : emission.Allocated next text address asVariable)
    (hfinal : next.memory.Extends final) : (final.slot? text).isSome := by
  obtain ⟨slot, hslot, -⟩ := h.memory.slot
  simp [hfinal text slot hslot]

/-- What it means that an atom has been written. -/
structure WroteAtom (emission next : Emission) (atom : Atom) : Prop where
  program : ∀ {final : Memory}, next.memory.Extends final →
    next.memory.program = emission.memory.program ++ atom.code final.cellOf fun _ => 0
  grows : emission.memory.Extends next.memory
  slotted : ∀ text ∈ atom.texts, (next.memory.slot? text).isSome
  stocked : (∀ name, atom.assigned? = some name → isLiteral name = false) →
    emission.memory.Stocked → next.memory.Stocked
  relocations :
    next.relocations = atom.relocate emission.memory.program.length emission.relocations
  new : ∀ name, atom.label? = some name → emission.relocations.labelIndex? name = none

/-- An atom that combines two operands into a variable. -/
theorem wroteAtom_combine {atom : Atom} {operation : Arithmetic} {left right result : String}
    {leftCell rightCell resultCell : Nat} {e₁ e₂ e₃ : Emission}
    (hleft : emission.Allocated e₁ left leftCell false)
    (hright : e₁.Allocated e₂ right rightCell false)
    (hresult : e₂.Allocated e₃ result resultCell true)
    (hnext : next = ((e₃.append { operation := .load, address := leftCell }).append
      { operation := .arithmetic operation, address := rightCell }).append
        { operation := .store, address := resultCell })
    (htexts : atom.texts = [left, right, result])
    (hcode : ∀ cellOf goal, atom.code cellOf goal =
      [{ operation := .load, address := cellOf left },
        { operation := .arithmetic operation, address := cellOf right },
        { operation := .store, address := cellOf result }])
    (hrelocate : ∀ index relocations, atom.relocate index relocations = relocations)
    (hassigned : atom.assigned? = some result) (hlabel : atom.label? = none) :
    emission.WroteAtom next atom := by
  subst hnext
  have hgrows := hright.memory.grows.trans hresult.memory.grows
  exact {
    program := by
      intro final hfinal
      have hfinal : e₃.memory.Extends final := hfinal
      simp [hcode, hleft.cellOf_eq (hgrows.trans hfinal),
        hright.cellOf_eq (hresult.memory.grows.trans hfinal), hresult.cellOf_eq hfinal,
        hresult.memory.program, hright.memory.program, hleft.memory.program]
    grows := hleft.memory.grows.trans hgrows
    slotted := by
      simp [htexts, hleft.isSome hgrows, hright.isSome hresult.memory.grows,
        hresult.isSome (Memory.Extends.refl _)]
    stocked := fun hvariable hstocked => hresult.stocked (fun _ => hvariable result hassigned)
      (hright.stocked_operand (hleft.stocked_operand hstocked))
    relocations := by
      simp [hrelocate, hresult.relocations, hright.relocations, hleft.relocations]
    new := fun name hname => by simp [hlabel] at hname }

/-- An operation is written as a load, the operation and a store. -/
theorem wroteAtom_arithmetic {operation : Arithmetic} {left right result : String}
    (h : emission.atom (.arithmetic operation left right result) = .ok next) :
    emission.WroteAtom next (.arithmetic operation left right result) := by
  obtain ⟨⟨leftCell, e₁⟩, hleft, h⟩ := bind_eq_ok h
  obtain ⟨⟨rightCell, e₂⟩, hright, h⟩ := bind_eq_ok h
  obtain ⟨⟨resultCell, e₃⟩, hcell, h⟩ := bind_eq_ok h
  obtain ⟨e₄, hload, h⟩ := bind_eq_ok h
  obtain ⟨e₅, hoperation, h⟩ := bind_eq_ok h
  obtain ⟨-, rfl⟩ := write_eq_ok hload
  obtain ⟨-, rfl⟩ := write_eq_ok hoperation
  obtain ⟨-, hnext⟩ := write_eq_ok h
  exact wroteAtom_combine (allocated_operand hleft) (allocated_operand hright)
    (allocated_result hcell) hnext rfl (fun _ _ => rfl) (fun _ _ => rfl) rfl rfl

/-- A negation is written as a subtraction from zero. -/
theorem wroteAtom_negate {source result : String}
    (h : emission.atom (.negate source result) = .ok next) :
    emission.WroteAtom next (.negate source result) := by
  obtain ⟨⟨zeroCell, e₁⟩, hzero, h⟩ := bind_eq_ok h
  obtain ⟨⟨sourceCell, e₂⟩, hsource, h⟩ := bind_eq_ok h
  obtain ⟨⟨resultCell, e₃⟩, hcell, h⟩ := bind_eq_ok h
  obtain ⟨e₄, hload, h⟩ := bind_eq_ok h
  obtain ⟨e₅, hoperation, h⟩ := bind_eq_ok h
  obtain ⟨-, rfl⟩ := write_eq_ok hload
  obtain ⟨-, rfl⟩ := write_eq_ok hoperation
  obtain ⟨-, hnext⟩ := write_eq_ok h
  exact wroteAtom_combine (allocated_zero hzero) (allocated_operand hsource)
    (allocated_result hcell) hnext rfl (fun _ _ => rfl) (fun _ _ => rfl) rfl rfl

/-- A move is written as a load and a store, and the literal zero is not loaded but cleared. -/
theorem wroteAtom_move {source result : String}
    (h : emission.atom (.move source result) = .ok next) :
    emission.WroteAtom next (.move source result) := by
  simp only [atom] at h
  split at h
  -- zero has no cell of its own here
  · next hzero =>
      obtain ⟨e₁, hclear, h⟩ := bind_eq_ok h
      obtain ⟨⟨resultCell, e₂⟩, hcell, hstore⟩ := bind_eq_ok h
      obtain ⟨-, rfl⟩ := write_eq_ok hclear
      obtain ⟨-, rfl⟩ := write_eq_ok hstore
      have hcell := allocated_result hcell
      exact {
        program := by
          intro final hfinal
          have hfinal : e₂.memory.Extends final := hfinal
          simp [Atom.code, hzero, hcell.cellOf_eq hfinal, hcell.memory.program]
        grows := hcell.memory.grows
        slotted := by simp [Atom.texts, hzero, hcell.isSome (Memory.Extends.refl _)]
        stocked := fun hvariable => hcell.stocked fun _ => hvariable result rfl
        relocations := by simp [Atom.relocate, Atom.reference?, hcell.relocations]
        new := fun name hname => by cases hname }
  · next hsource =>
      obtain ⟨⟨sourceCell, e₁⟩, hoperand, h⟩ := bind_eq_ok h
      obtain ⟨e₂, hload, h⟩ := bind_eq_ok h
      obtain ⟨⟨resultCell, e₃⟩, hcell, hstore⟩ := bind_eq_ok h
      obtain ⟨-, rfl⟩ := write_eq_ok hload
      obtain ⟨-, rfl⟩ := write_eq_ok hstore
      have hoperand := allocated_operand hoperand
      have hcell := allocated_result hcell
      -- the result gets its cell after the load is written, and the operand keeps its own
      have hgrows : e₁.memory.Extends e₃.memory := hcell.memory.grows
      exact {
        program := by
          intro final hfinal
          have hfinal : e₃.memory.Extends final := hfinal
          simp [Atom.code, hsource, hoperand.cellOf_eq (hgrows.trans hfinal),
            hcell.cellOf_eq hfinal, hcell.memory.program, hoperand.memory.program]
        grows := hoperand.memory.grows.trans hgrows
        slotted := by
          simp [Atom.texts, hsource, hoperand.isSome hgrows,
            hcell.isSome (Memory.Extends.refl _)]
        stocked := fun hvariable hstocked =>
          hcell.stocked (fun _ => hvariable result rfl) (hoperand.stocked_operand hstocked)
        relocations := by
          simp [Atom.relocate, Atom.reference?, hcell.relocations, hoperand.relocations]
        new := fun name hname => by cases hname }

/-- A test is written as a load and a conditional jump on the opposite comparison.  A
comparison that always holds has no opposite, and its test has cells for its operands but
no code. -/
theorem wroteAtom_test {left right : String} {comparison : Comparison} {target : String}
    (h : emission.atom (.test left right comparison target) = .ok next) :
    emission.WroteAtom next (.test left right comparison target) := by
  obtain ⟨⟨leftCell, e₁⟩, hleft, h⟩ := bind_eq_ok h
  obtain ⟨⟨rightCell, e₂⟩, hright, h⟩ := bind_eq_ok h
  have hleft := allocated_operand hleft
  have hright := allocated_operand hright
  dsimp only at h
  split at h
  · next opposite hopposite =>
      obtain ⟨e₃, hload, h⟩ := bind_eq_ok h
      obtain ⟨-, rfl⟩ := write_eq_ok hload
      obtain ⟨-, hmemory, hrelocations⟩ := jumpIf_eq_ok h
      -- code brings no cells
      have hslots : ∀ text, next.memory.slot? text = e₂.memory.slot? text := by
        intro text
        rw [hmemory]
        rfl
      have hgrows : e₂.memory.Extends next.memory := by
        intro text slot hslot
        rw [hslots, hslot]
      exact {
        program := by
          intro final hfinal
          have hfinal := hgrows.trans hfinal
          rw [hmemory]
          simp [Atom.code, hopposite, hleft.cellOf_eq (hright.memory.grows.trans hfinal),
            hright.cellOf_eq hfinal, hright.memory.program, hleft.memory.program,
            Relocations.addressOf, Instruction.jump]
        grows := hleft.memory.grows.trans (hright.memory.grows.trans hgrows)
        slotted := by
          simp [Atom.texts, hleft.isSome (hright.memory.grows.trans hgrows),
            hright.isSome hgrows]
        stocked := by
          intro _ hstocked
          rw [hmemory]
          exact hright.stocked_operand (hleft.stocked_operand hstocked)
        relocations := by
          rw [hrelocations]
          simp [Atom.relocate, Atom.reference?, hopposite, hright.relocations,
            hleft.relocations, hright.memory.program, hleft.memory.program]
        new := fun name hname => by cases hname }
  · next hopposite =>
      obtain rfl := Except.ok.inj h
      exact {
        program := by
          intro final hfinal
          simp [Atom.code, hopposite, hright.memory.program, hleft.memory.program]
        grows := hleft.memory.grows.trans hright.memory.grows
        slotted := by
          simp [Atom.texts, hleft.isSome hright.memory.grows,
            hright.isSome (Memory.Extends.refl _)]
        stocked := fun _ hstocked =>
          hright.stocked_operand (hleft.stocked_operand hstocked)
        relocations := by
          simp [Atom.relocate, Atom.reference?, hopposite, hright.relocations,
            hleft.relocations]
        new := fun name hname => by cases hname }

/-- A jump is written as a comparison that always holds and a jump. -/
theorem wroteAtom_jump {target : String} (h : emission.atom (.jump target) = .ok next) :
    emission.WroteAtom next (.jump target) := by
  obtain ⟨⟨zeroCell, e₁⟩, hzero, h⟩ := bind_eq_ok h
  have hzero := allocated_zero hzero
  obtain ⟨-, hmemory, hrelocations⟩ := jumpIf_eq_ok h
  have hgrows : e₁.memory.Extends next.memory := by
    intro text slot hslot
    rw [hmemory]
    exact hslot
  exact {
    program := by
      intro final hfinal
      rw [hmemory]
      simp [Atom.code, hzero.cellOf_eq (hgrows.trans hfinal), hzero.memory.program,
        Relocations.addressOf, Instruction.jump]
    grows := hzero.memory.grows.trans hgrows
    slotted := by simp [Atom.texts, hzero.isSome hgrows]
    stocked := by
      intro _ hstocked
      rw [hmemory]
      exact hzero.stocked_operand hstocked
    relocations := by
      rw [hrelocations]
      simp [Atom.relocate, Atom.reference?, hzero.relocations, hzero.memory.program]
    new := fun name hname => by cases hname }

/-- A label writes no code, and is defined as the place of the next instruction. -/
theorem wroteAtom_label {name : String} (h : emission.atom (.label name) = .ok next) :
    emission.WroteAtom next (.label name) := by
  simp only [atom, label, Relocations.defineNew] at h
  split at h
  · next relocations hdefine =>
      obtain rfl := Except.ok.inj h
      split at hdefine
      · cases hdefine
      · next hnone =>
          obtain rfl := Except.ok.inj hdefine
          exact {
            program := fun _ => by simp [Atom.code]
            grows := Memory.Extends.refl _
            slotted := fun text htext => by cases htext
            stocked := fun _ hstocked => hstocked
            relocations := rfl
            new := by
              intro other hother
              obtain rfl := Option.some.inj hother
              simpa using hnone }
  · cases h

/-- **What emission does at an atom.** -/
theorem wroteAtom {atom : Atom} (h : emission.atom atom = .ok next) :
    emission.WroteAtom next atom := by
  cases atom with
  | arithmetic operation left right result => exact wroteAtom_arithmetic h
  | negate source result => exact wroteAtom_negate h
  | move source result => exact wroteAtom_move h
  | test left right comparison target => exact wroteAtom_test h
  | jump target => exact wroteAtom_jump h
  | label name => exact wroteAtom_label h

end Emission

/-! ## Lists of atoms -/

/-- How many instructions a list of atoms takes. -/
def wordsOf : List Atom → Nat
  | [] => 0
  | atom :: rest => atom.words + wordsOf rest

/-- The jumps among the instructions of a list of atoms that begin at the given
index, first to last. -/
def referencesFrom (index : Nat) : List Atom → List (Nat × String)
  | [] => []
  | atom :: rest => (atom.reference? index).toList ++ referencesFrom (index + atom.words) rest

/-- The index of the instruction that the definition of a label stands before. -/
def goalIn (atoms : List Atom) (label : String) : Nat :=
  wordsOf (atoms.take ((labelPlace? atoms label).getD 0))

@[simp] theorem wordsOf_nil : wordsOf [] = 0 := rfl

@[simp] theorem wordsOf_cons (atom : Atom) (atoms : List Atom) :
    wordsOf (atom :: atoms) = atom.words + wordsOf atoms := rfl

@[simp] theorem wordsOf_append (first second : List Atom) :
    wordsOf (first ++ second) = wordsOf first + wordsOf second := by
  induction first with
  | nil => simp
  | cons atom first ih => rw [List.cons_append, wordsOf_cons, wordsOf_cons, ih, Nat.add_assoc]

/-- No beginning of a list has more words than the list. -/
theorem wordsOf_take_le (atoms : List Atom) (place : Nat) :
    wordsOf (atoms.take place) ≤ wordsOf atoms := by
  have hsplit := congrArg wordsOf (List.take_append_drop place atoms)
  rw [wordsOf_append] at hsplit
  omega

/-- The code of a list takes up as many words as are counted for it. -/
@[simp] theorem length_flatMap_code (cellOf goal : String → Nat) (atoms : List Atom) :
    (atoms.flatMap (Atom.code cellOf goal)).length = wordsOf atoms := by
  induction atoms with
  | nil => rfl
  | cons atom atoms ih => simp [ih]

/-- The references of a list are those of its parts, moved by the words before them. -/
theorem referencesFrom_append (index : Nat) (first second : List Atom) :
    referencesFrom index (first ++ second) =
      referencesFrom index first ++ referencesFrom (index + wordsOf first) second := by
  induction first generalizing index with
  | nil => simp [referencesFrom]
  | cons atom first ih =>
      rw [List.cons_append, referencesFrom, ih, referencesFrom, wordsOf_cons, ← Nat.add_assoc,
        List.append_assoc]

/-- The reference of an atom is one of its own words. -/
theorem Atom.reference?_lt {index place : Nat} {target : String} {atom : Atom}
    (h : atom.reference? index = some (place, target)) :
    index ≤ place ∧ place < index + atom.words := by
  cases atom with
  | test left right comparison goal =>
      simp only [reference?] at h
      split at h
      · next hsome =>
          obtain ⟨rfl, -⟩ := Prod.mk.inj (Option.some.inj h)
          simp [words, hsome]
      · cases h
  | jump goal =>
      obtain ⟨rfl, -⟩ := Prod.mk.inj (Option.some.inj h)
      simp [words]
  | _ => cases h

/-- The references of a list are among its words. -/
theorem lt_of_mem_referencesFrom {index : Nat} {atoms : List Atom} {entry : Nat × String}
    (h : entry ∈ referencesFrom index atoms) : entry.1 < index + wordsOf atoms := by
  induction atoms generalizing index with
  | nil => cases h
  | cons atom atoms ih =>
      rw [referencesFrom, List.mem_append] at h
      rw [wordsOf_cons]
      rcases h with h | h
      · have hlt := Atom.reference?_lt (Option.mem_toList.mp h)
        omega
      · have hlt := ih h
        omega

namespace Relocations

/-- A jump behind all others waits behind all others. -/
theorem insertReference_of_lt {index : Nat} {label : String} {references : List (Nat × String)}
    (h : ∀ entry ∈ references, entry.1 < index) :
    insertReference index label references = references ++ [(index, label)] := by
  induction references with
  | nil => rfl
  | cons entry rest ih =>
      have hentry := h entry List.mem_cons_self
      rw [insertReference, if_neg (by omega), if_neg (by omega),
        ih fun other hother => h other (List.mem_cons_of_mem entry hother)]
      rfl

/-- Defining a label leaves all others as they are. -/
theorem labelIndex?_define_of_ne {relocations : Relocations} {label other : String}
    (h : other ≠ label) (index : Nat) :
    (relocations.define label index).labelIndex? other = relocations.labelIndex? other := by
  rw [labelIndex?, define, List.lookup_cons]
  have hne : (other == label) = false := by simpa using h
  simp only [hne]
  unfold labelIndex?
  induction relocations.labels with
  | nil => rfl
  | cons entry rest ih =>
      obtain ⟨name, place⟩ := entry
      by_cases hname : name = label
      · have hother : (other == name) = false := by simpa [hname] using h
        simp only [hname, ne_eq, not_true, decide_false, Bool.false_eq_true, not_false_eq_true,
          List.filter_cons_of_neg, List.lookup_cons]
        rw [ih]
        simp [hne]
      · simp only [ne_eq, hname, not_false_eq_true, decide_true, List.filter_cons_of_pos,
          List.lookup_cons, ih]

end Relocations

/-- A label that an atom brings at the end counts only if it was not defined before. -/
theorem labelPlace?_concat (atoms : List Atom) (atom : Atom) (name : String) :
    labelPlace? (atoms ++ [atom]) name = (labelPlace? atoms name).or
      (if atom.label? = some name then some atoms.length else none) := by
  rw [labelPlace?, List.findIdx?_append]
  by_cases h : atom.label? = some name <;> simp [labelPlace?, List.findIdx?_cons, h]

namespace Atom

/-- An atom defines its own label and no other. -/
theorem labelIndex?_relocate (atom : Atom) (index : Nat) (relocations : Relocations)
    (name : String) :
    (atom.relocate index relocations).labelIndex? name =
      if atom.label? = some name then some index else relocations.labelIndex? name := by
  cases atom with
  | label other =>
      by_cases h : other = name
      · subst h
        simp [relocate, Relocations.labelIndex?_define_self]
      · simp [relocate, h, Relocations.labelIndex?_define_of_ne (Ne.symm h)]
  | test left right comparison target =>
      cases hopposite : comparison.opposite? <;>
        simp [relocate, reference?, hopposite, label?, Relocations.refer, Relocations.labelIndex?]
  | _ => rfl

/-- The reference of an atom comes behind all earlier ones. -/
theorem references_relocate (atom : Atom) {index : Nat} {relocations : Relocations}
    (h : ∀ entry ∈ relocations.references, entry.1 < index) :
    (atom.relocate index relocations).references =
      relocations.references ++ (atom.reference? index).toList := by
  have hinsert : ∀ place target, index ≤ place →
      (relocations.refer place target).references =
        relocations.references ++ [(place, target)] := by
    intro place target hle
    refine Relocations.insertReference_of_lt fun entry hentry => ?_
    have hlt := h entry hentry
    omega
  cases atom with
  | test left right comparison target =>
      cases hopposite : comparison.opposite? with
      | none => simp [relocate, reference?, hopposite]
      | some opposite => simp [relocate, reference?, hopposite, hinsert]
  | jump target => simp [relocate, reference?, hinsert]
  | label name => simp [relocate, reference?, Relocations.define]
  | _ => simp [relocate, reference?]

end Atom

namespace Emission

/-- What is said of an emission after some atoms have been written. -/
structure Wrote (emission : Emission) (done : List Atom) : Prop where
  program : ∀ {final : Memory}, emission.memory.Extends final →
    emission.memory.program = done.flatMap (Atom.code final.cellOf fun _ => 0)
  slotted : ∀ atom ∈ done, ∀ text ∈ atom.texts, (emission.memory.slot? text).isSome
  stocked : (∀ name ∈ assignedOf done, isLiteral name = false) → emission.memory.Stocked
  references : emission.relocations.references = referencesFrom 0 done
  labels : ∀ name, emission.relocations.labelIndex? name =
    (labelPlace? done name).map fun place => wordsOf (done.take place)

theorem wrote_nil : Wrote {} [] where
  program := fun _ => rfl
  slotted := fun _ hatom => by cases hatom
  stocked := fun _ => Memory.stocked_empty
  references := rfl
  labels := fun _ => rfl

variable {emission next : Emission} {done : List Atom} {atom : Atom}

/-- So far there are as many instructions as words were counted. -/
theorem Wrote.length_program (h : emission.Wrote done) :
    emission.memory.program.length = wordsOf done := by
  rw [h.program (Memory.Extends.refl _), length_flatMap_code]

/-- **One more atom.**  What was written for the atoms so far stays, and the code of the atom
comes behind it; cells and references are found where they were. -/
theorem Wrote.concat (h : emission.Wrote done) (hatom : emission.WroteAtom next atom) :
    next.Wrote (done ++ [atom]) where
  program := by
    intro final hfinal
    rw [hatom.program hfinal, h.program (hatom.grows.trans hfinal)]
    simp
  slotted := by
    intro other hother text htext
    rcases List.mem_append.mp hother with hother | hother
    · obtain ⟨slot, hslot⟩ := Option.isSome_iff_exists.mp (h.slotted other hother text htext)
      simp [hatom.grows text slot hslot]
    · obtain rfl := List.mem_singleton.mp hother
      exact hatom.slotted text htext
  stocked := by
    intro hassigned
    refine hatom.stocked (fun name hname => hassigned name ?_) (h.stocked fun name hname => ?_)
    · exact List.mem_filterMap.mpr ⟨atom, by simp, hname⟩
    · exact hassigned name (by simp [assignedOf_append, hname])
  references := by
    -- earlier references are all to earlier words, so the new one comes last
    have hlt : ∀ entry ∈ emission.relocations.references,
        entry.1 < emission.memory.program.length := by
      intro entry hentry
      rw [h.references] at hentry
      have hentry := lt_of_mem_referencesFrom hentry
      rw [h.length_program]
      omega
    rw [hatom.relocations, atom.references_relocate hlt, h.references, h.length_program,
      referencesFrom_append]
    simp [referencesFrom]
  labels := by
    intro name
    rw [hatom.relocations, Atom.labelIndex?_relocate, labelPlace?_concat, h.labels]
    -- a label that the atom brings is new, or emission would have failed
    by_cases hname : atom.label? = some name
    · have hnew := hatom.new name hname
      rw [h.labels, Option.map_eq_none_iff] at hnew
      simp [hname, hnew, h.length_program]
    · simp only [hname, if_false, Option.or_none]
      cases hplace : labelPlace? done name with
      | none => rfl
      | some place =>
          have hle := Nat.le_of_lt (labelPlace?_lt hplace)
          simp [List.take_append_of_le_length hle]

/-- **Every emission that succeeds has written its atoms.** -/
theorem wrote_atoms {atoms : List Atom} (h : emission.Wrote done)
    (hatoms : emission.atoms atoms = .ok next) : next.Wrote (done ++ atoms) := by
  induction atoms generalizing emission done with
  | nil =>
      obtain rfl := Except.ok.inj hatoms
      simpa using h
  | cons atom atoms ih =>
      rw [Emission.atoms, List.foldlM_cons] at hatoms
      obtain ⟨middle, hmiddle, hatoms⟩ := bind_eq_ok hatoms
      have hwrote := ih (h.concat (wroteAtom hmiddle)) hatoms
      simpa using hwrote

end Emission

/-! ## Addresses of jumps -/

/-- The place of a label in the tables, or the beginning of the program. -/
def Relocations.goal (relocations : Relocations) (label : String) : Nat :=
  (relocations.labelIndex? label).getD 0

/-- Filling in the address of an atom's jump. -/
theorem Atom.modify_code {atom : Atom} {place : Nat} {target : String}
    {before : List Instruction} (h : atom.reference? before.length = some (place, target))
    (cellOf goal : String → Nat) (after : List Instruction) :
    (before ++ (atom.code cellOf (fun _ => 0) ++ after)).modify place
        (fun instruction => { instruction with address := Relocations.addressOf (goal target) }) =
      before ++ (atom.code cellOf goal ++ after) := by
  cases atom with
  | test left right comparison label =>
      simp only [reference?] at h
      split at h
      · next hsome =>
          obtain ⟨opposite, hopposite⟩ := Option.isSome_iff_exists.mp hsome
          obtain ⟨rfl, rfl⟩ := Prod.mk.inj (Option.some.inj h)
          rw [List.modify, List.modifyTailIdx_add]
          simp [code, hopposite]
      · cases h
  | jump label =>
      obtain ⟨rfl, rfl⟩ := Prod.mk.inj (Option.some.inj h)
      rw [List.modify, List.modifyTailIdx_add]
      simp [code]
  | _ => cases h

/-- The code of an atom without a jump needs no addresses. -/
theorem Atom.code_of_reference?_eq_none {atom : Atom} {index : Nat}
    (h : atom.reference? index = none) (cellOf goal : String → Nat) :
    atom.code cellOf (fun _ => 0) = atom.code cellOf goal := by
  cases atom with
  | test left right comparison label =>
      cases hopposite : comparison.opposite? with
      | none => simp [code, hopposite]
      | some opposite => simp [reference?, hopposite] at h
  | jump label => cases h
  | _ => rfl

/-- **Resolution fills in the address of every jump,** and every jump has a label
to go to. -/
theorem Relocations.patch_code {relocations : Relocations} {atoms : List Atom}
    (before : List Instruction) {after patched : List Instruction} (cellOf : String → Nat)
    (h : relocations.patch (referencesFrom before.length atoms)
      (before ++ (atoms.flatMap (Atom.code cellOf fun _ => 0) ++ after)) = (patched, none)) :
    patched = before ++ (atoms.flatMap (Atom.code cellOf relocations.goal) ++ after) ∧
      ∀ entry ∈ referencesFrom before.length atoms, (relocations.labelIndex? entry.2).isSome := by
  induction atoms generalizing before with
  | nil =>
      obtain ⟨rfl, -⟩ := Prod.mk.inj h
      exact ⟨rfl, fun entry hentry => by cases hentry⟩
  | cons atom atoms ih =>
      have hlength : before.length + atom.words =
          (before ++ atom.code cellOf relocations.goal).length := by simp
      rw [referencesFrom, hlength] at h ⊢
      rw [List.flatMap_cons, List.append_assoc] at h
      -- the rest of the atoms, once the code of the first one is as it should be
      have hrest : relocations.patch
          (referencesFrom (before ++ atom.code cellOf relocations.goal).length atoms)
          (before ++ (atom.code cellOf relocations.goal ++
            (atoms.flatMap (Atom.code cellOf fun _ => 0) ++ after))) = (patched, none) ∧
          ∀ entry ∈ (atom.reference? before.length).toList,
            (relocations.labelIndex? entry.2).isSome := by
        cases hreference : atom.reference? before.length with
        | none =>
            rw [hreference, Atom.code_of_reference?_eq_none hreference cellOf relocations.goal] at h
            exact ⟨h, fun entry hentry => by cases hentry⟩
        | some entry =>
            obtain ⟨place, target⟩ := entry
            rw [hreference, Option.toList_some, List.singleton_append, patch] at h
            split at h
            · next index hindex =>
                have hgoal : index = relocations.goal target := by simp [goal, hindex]
                rw [hgoal, Atom.modify_code hreference] at h
                refine ⟨h, ?_⟩
                intro entry hentry
                obtain rfl : entry = (place, target) := by simpa using hentry
                simp [hindex]
            · cases h
      obtain ⟨hpatched, hfound⟩ := hrest
      rw [← List.append_assoc before] at hpatched
      obtain ⟨rfl, hrestFound⟩ := ih _ hpatched
      refine ⟨by simp, ?_⟩
      intro entry hentry
      rcases List.mem_append.mp hentry with hentry | hentry
      · exact hfound entry hentry
      · exact hrestFound entry hentry

/-! ## Emitted memories -/

/-- A memory that runs a list of atoms. -/
structure Emitted (atoms : List Atom) (memory : Memory) : Prop where
  program : memory.program =
    atoms.flatMap (Atom.code memory.cellOf (goalIn atoms)) ++ [{ operation := .halt }]
  length_le : memory.program.length ≤ programBytes / wordBytes
  slotted : ∀ atom ∈ atoms, ∀ text ∈ atom.texts, (memory.slot? text).isSome
  stocked : (∀ name ∈ assignedOf atoms, isLiteral name = false) → memory.Stocked
  targets : ∀ entry ∈ referencesFrom 0 atoms, ∃ place, labelPlace? atoms entry.2 = some place

/-- The labels that were defined are the places of the labels in the list. -/
theorem Emission.Wrote.goal_eq {emission : Emission} {atoms : List Atom}
    (h : emission.Wrote atoms) : emission.relocations.goal = goalIn atoms := by
  funext label
  rw [Relocations.goal, h.labels, goalIn]
  cases labelPlace? atoms label <;> simp

/-- What has been written when only the addresses of jumps are missing. -/
def Emission.ofAtoms (atoms : List Atom) : Except EmitError Emission := do
  let emission ← Emission.atoms {} atoms
  emission.write .halt 0

/-- Emission in three stages: the atoms, the survivors, the addresses. -/
theorem emit_eq_bind (atoms : List Atom) (shortened : Bool) :
    emit atoms shortened = (Emission.ofAtoms atoms).bind fun emission =>
      (if shortened then emission.shorten else emission).resolve := by
  simp only [emit, Emission.ofAtoms]
  cases Emission.atoms {} atoms <;> rfl

/-- All atoms are written before the machine is told to halt. -/
theorem Emission.ofAtoms_eq_ok {atoms : List Atom} {emission : Emission}
    (h : Emission.ofAtoms atoms = .ok emission) :
    ∃ written : Emission, written.Wrote atoms ∧
      wordsOf atoms < programBytes / wordBytes ∧
      emission = written.append { operation := .halt } := by
  obtain ⟨written, hatoms, h⟩ := bind_eq_ok h
  have hwrote : written.Wrote atoms := by
    simpa using Emission.wrote_atoms Emission.wrote_nil hatoms
  obtain ⟨hroom, rfl⟩ := Emission.write_eq_ok h
  rw [hwrote.length_program] at hroom
  exact ⟨written, hwrote, hroom, rfl⟩

/-- **Emission without shortening writes the code of its atoms.** -/
theorem emitted_of_emit {atoms : List Atom} {memory : Memory}
    (h : emit atoms false = .ok memory) : Emitted atoms memory := by
  rw [emit_eq_bind] at h
  obtain ⟨emission, hemission, h⟩ := bind_eq_ok h
  obtain ⟨written, hwrote, hroom, rfl⟩ := Emission.ofAtoms_eq_ok hemission
  simp only [Bool.false_eq_true, if_false, Emission.resolve, Relocations.resolve] at h
  split at h
  · next program hpatch =>
      obtain rfl := Except.ok.inj h
      let memory : Memory := { written.memory with program }
      have hgrows : written.memory.Extends memory := fun _ _ hslot => hslot
      rw [Emission.program_append, Emission.relocations_append, hwrote.references,
        hwrote.program hgrows] at hpatch
      obtain ⟨hprogram, htargets⟩ := Relocations.patch_code [] memory.cellOf hpatch
      rw [hwrote.goal_eq, List.nil_append] at hprogram
      exact {
        program := hprogram
        length_le := by
          have hlength := congrArg List.length hprogram
          rw [List.length_append, length_flatMap_code] at hlength
          simp only [List.length_singleton] at hlength
          show program.length ≤ _
          omega
        slotted := hwrote.slotted
        stocked := hwrote.stocked
        targets := by
          intro entry hentry
          have hfound := htargets entry hentry
          rw [hwrote.labels, Option.isSome_map] at hfound
          exact Option.isSome_iff_exists.mp hfound }
  · cases h

end AtomCompiler
