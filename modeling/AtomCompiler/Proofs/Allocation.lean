import AtomCompiler.Memory.Calls
import AtomCompiler.Proofs.Emittable

/-!
# Cells are allocated in order

Whatever calls fill memory, in whatever order and with whatever failures between
them: the texts that have cells have them in the order in which they were first
referred to with success, a cell keeps its text and the number it begins with, and
no two cells and no instruction share a byte.

* `Memory.Indexed` — the slots of texts and the texts of cells are inverse to each
  other, and everything fits;
* `Called.indexed`, `Memory.Indexed.after` — what a call keeps, and what calls keep;
* `Memory.Indexed.cells_after` — which cells there are after some calls;
* `calls_fill_in_order` — all of it for a fresh memory.
-/

namespace AtomCompiler

/-- Texts and slots are inverse to each other, and everything fits into its
region. -/
structure Memory.Indexed (memory : Memory) : Prop where
  slots : ∀ name slot, memory.slot? name = some slot ↔
    ∃ bits, memory.cells[slot]? = some ⟨name, bits⟩
  words : memory.program.length ≤ maxWords
  size : memory.cells.size ≤ maxCells

/-- Memory has grown at its ends and nowhere else. -/
structure Memory.Grows (memory later : Memory) : Prop where
  program : memory.program <+: later.program
  cells : memory.cells.toList <+: later.cells.toList
  slots : memory.Extends later

namespace Memory

variable {memory next later : Memory}

/-- The empty memory is in order. -/
theorem indexed_empty : Indexed {} where
  slots := by
    intro name slot
    simp [slot?]
  words := Nat.zero_le _
  size := Nat.zero_le _

/-- Memory that stays as it is has grown. -/
theorem Grows.refl (memory : Memory) : memory.Grows memory :=
  ⟨List.prefix_refl _, List.prefix_refl _, Extends.refl _⟩

/-- Memory that has grown twice has grown. -/
theorem Grows.trans (h₁ : memory.Grows next) (h₂ : next.Grows later) : memory.Grows later :=
  ⟨h₁.program.trans h₂.program, h₁.cells.trans h₂.cells, h₁.slots.trans h₂.slots⟩

/-- A new cell comes behind all others. -/
@[simp] theorem toList_cells_addCell (memory : Memory) (name : String) (bits : UInt64) :
    (memory.addCell name bits).cells.toList = memory.cells.toList ++ [⟨name, bits⟩] :=
  Array.toList_push

/-- The next cell is that of the new text, and all others stay as they are. -/
theorem Indexed.addCell (h : memory.Indexed) {name : String} (hnone : memory.slot? name = none)
    (hroom : memory.cells.size < maxCells) (bits : UInt64) : (memory.addCell name bits).Indexed where
  slots := by
    intro other slot
    rw [slot?_addCell]
    have hpush : (memory.addCell name bits).cells[slot]? =
        if slot = memory.cells.size then some ⟨name, bits⟩ else memory.cells[slot]? :=
      Array.getElem?_push
    rw [hpush]
    by_cases hslot : slot = memory.cells.size
    · -- the new slot belongs to no text that had a cell before
      have hfree : memory.slot? other ≠ some slot := by
        intro hother
        obtain ⟨known, hknown⟩ := (h.slots other slot).mp hother
        rw [hslot, Array.getElem?_size] at hknown
        cases hknown
      by_cases hname : name = other
      · simp [hname, hslot]
      · simp only [hname, if_false, hslot, if_true, Option.some.injEq, Cell.mk.injEq, false_and,
          exists_const, iff_false]
        rw [← hslot]
        exact hfree
    · by_cases hname : name = other
      · subst hname
        have hnever : ¬∃ known, memory.cells[slot]? = some ⟨name, known⟩ := by
          intro hknown
          rw [(h.slots name slot).mpr hknown] at hnone
          cases hnone
        simp only [if_true, hslot, if_false, hnever, iff_false, Option.some.injEq]
        exact Ne.symm hslot
      · simp only [hname, if_false, hslot]
        exact h.slots other slot
  words := h.words
  size := by
    have hsize : (memory.addCell name bits).cells.size = memory.cells.size + 1 :=
      Array.size_push _
    omega

end Memory

/-! ## One call -/

namespace Called

variable {memory next : Memory} {call : MemoryCall} {answer : Except MemoryError Nat}

/-- **A call keeps memory in order.** -/
theorem indexed (hcall : Called memory call answer next) (h : memory.Indexed) : next.Indexed := by
  cases hcall with
  | pushed instruction hroom =>
      refine ⟨h.slots, ?_, h.size⟩
      rw [List.length_append, List.length_singleton]
      exact hroom
  | added hcell hnone hroom => exact h.addCell hnone (cellAddress_le_iff.mp hroom) _
  | programFull => exact h
  | found => exact h
  | dataFull => exact h
  | unreadable => exact h

/-- A call adds to memory at its ends, or not at all. -/
theorem grows (hcall : Called memory call answer next) : memory.Grows next := by
  cases hcall with
  | pushed instruction hroom =>
      exact ⟨List.prefix_append _ _, List.prefix_refl _, Memory.Extends.refl _⟩
  | added hcell hnone hroom =>
      refine ⟨List.prefix_refl _, ?_, ?_⟩
      · rw [Memory.toList_cells_addCell]
        exact List.prefix_append _ _
      · intro other slot hother
        rw [Memory.slot?_addCell, if_neg, hother]
        intro hname
        rw [hname, hother] at hnone
        cases hnone
  | programFull => exact .refl _
  | found => exact .refl _
  | dataFull => exact .refl _
  | unreadable => exact .refl _

/-- A call that fails changes nothing. -/
theorem eq_of_error {error : MemoryError} (hcall : Called memory call (.error error) next) :
    next = memory := by
  cases hcall <;> rfl

/-- The address that a call is answered with is that of the text's slot, and it fits
into an instruction with all bytes of the cell. -/
theorem address_eq {address : Nat} {cell : Cell} (hcall : Called memory call (.ok address) next)
    (h : memory.Indexed) (hcell : call.cell? = some cell) :
    ∃ slot, next.slot? cell.name = some slot ∧ slot < maxCells ∧ address = cellAddress slot := by
  cases hcall with
  | pushed => cases hcell
  | found hother hslot =>
      obtain rfl := Option.some.inj (hcell.symm.trans hother)
      obtain ⟨bits, hbits⟩ := (h.slots _ _).mp hslot
      obtain ⟨hlt, -⟩ := Array.getElem?_eq_some_iff.mp hbits
      exact ⟨_, hslot, Nat.lt_of_lt_of_le hlt h.size, rfl⟩
  | added hother hnone hroom =>
      obtain rfl := Option.some.inj (hcell.symm.trans hother)
      refine ⟨_, ?_, cellAddress_le_iff.mp hroom, rfl⟩
      rw [Memory.slot?_addCell, if_pos rfl]

end Called

/-! ## Any number of calls -/

namespace Memory

variable {memory : Memory}

/-- **Calls keep memory in order.** -/
theorem Indexed.after (h : memory.Indexed) (calls : List MemoryCall) :
    (memory.after calls).Indexed := by
  induction calls generalizing memory with
  | nil => exact h
  | cons call calls ih => exact ih ((Called.of_call rfl).indexed h)

/-- Calls add to memory at its ends. -/
theorem grows_after (memory : Memory) (calls : List MemoryCall) :
    memory.Grows (memory.after calls) := by
  induction calls generalizing memory with
  | nil => exact .refl memory
  | cons call calls ih => exact (Called.of_call rfl).grows.trans (ih _)

/-- Memory that was filled by calls is in order. -/
theorem Reachable.indexed (h : memory.Reachable) : memory.Indexed := by
  obtain ⟨calls, rfl⟩ := h
  exact indexed_empty.after calls

/-- Whether a cell is for a text that has none yet. -/
def isNew (memory : Memory) (cell : Cell) : Bool :=
  (memory.slot? cell.name).isNone

/-- Whether two cells are for the same text. -/
def sameText (cell other : Cell) : Bool := cell.name == other.name

/-- A text is new after a cell was added if it was new before and is not the text of that cell. -/
theorem isNew_addCell (memory : Memory) (cell other : Cell) :
    (memory.addCell cell.name cell.bits).isNew other =
      (memory.isNew other && !sameText other cell) := by
  rw [isNew, slot?_addCell, isNew, sameText]
  by_cases hname : cell.name = other.name
  · simp [hname]
  · simp [hname, Ne.symm hname]

/-- **Which cells there are after some calls:** those that were there, and behind them
one for each new text, in the order of the first successful references and with the
numbers of those references. -/
theorem cells_after (memory : Memory) (calls : List MemoryCall) :
    (memory.after calls).cells.toList = memory.cells.toList ++
      ((memory.references calls).filter memory.isNew).eraseDupsBy sameText := by
  induction calls generalizing memory with
  | nil => simp [references]
  | cons call calls ih =>
      rw [after_cons, ih, references]
      generalize hcall : memory.call call = outcome
      obtain ⟨answer, next⟩ := outcome
      cases Called.of_call hcall with
      | pushed instruction hroom => rfl
      | @found _ cell slot hcell hslot =>
          -- a reference to a text that has a cell counts for nothing
          have hold : ¬memory.isNew cell = true := by
            simp [isNew, hslot]
          simp only [hcell, Option.toList_some, List.singleton_append]
          rw [List.filter_cons_of_neg hold]
      | @added _ cell hcell hnone hroom =>
          have hnew : memory.isNew cell = true := by
            simp [isNew, hnone]
          simp only [hcell, Option.toList_some, List.singleton_append]
          rw [List.filter_cons_of_pos hnew, List.eraseDupsBy_cons, List.filter_filter,
            toList_cells_addCell, List.append_assoc, List.singleton_append]
          congr 4
          funext other
          rw [isNew_addCell, Bool.and_comm]
          simp
      | programFull => rfl
      | dataFull => rfl
      | unreadable => rfl

end Memory

/-! ## A fresh memory -/

/-- What is said of memory when the successful ones among the calls that filled it
referred to the given cells. -/
structure FilledInOrder (memory : Memory) (references : List Cell) : Prop where
  /-- There is one cell for each text, in the order of first references, and it begins
  with the number of the first reference. -/
  cells : memory.cells.toList = references.eraseDupsBy fun cell other => cell.name == other.name
  /-- A text has the slot of its cell, so that texts and slots are one-to-one. -/
  slots : ∀ name slot, memory.slot? name = some slot ↔
    ∃ bits, memory.cells[slot]? = some ⟨name, bits⟩
  /-- The program has at most 128 words, and it ends before the first cell. -/
  words : memory.program.length ≤ 128
  below : wordBytes * memory.program.length ≤ cellAddress 0
  /-- A cell ends before the next one, and the last one before the last address. -/
  apart : ∀ slot other, slot < other → cellAddress slot + cellBytes ≤ cellAddress other
  within : ∀ slot < memory.cells.size, cellAddress slot + cellBytes ≤ 0x100000

/-- What is said of the answer to one more call. -/
structure AnswersInOrder (memory : Memory) (call : MemoryCall) (answer : Except MemoryError Nat)
    (next : Memory) : Prop where
  /-- A call that fails changes nothing. -/
  failed : ∀ error, answer = .error error → next = memory
  /-- An instruction is written at the end of the program, as long as there is room. -/
  pushed : ∀ instruction, call = .push instruction →
    ((∃ index, answer = .ok index) ↔ memory.program.length < 128) ∧
    ∀ index, answer = .ok index → index = memory.program.length ∧
      next = { memory with program := memory.program ++ [instruction] }
  /-- A text that has a cell is found, even if there is room for no other. -/
  found : ∀ cell slot, call.cell? = some cell → memory.slot? cell.name = some slot →
    answer = .ok (512 + 8 * slot) ∧ next = memory
  /-- A text that has no cell gets one, as long as there is room. -/
  added : ∀ cell, call.cell? = some cell → memory.slot? cell.name = none →
    ((∃ address, answer = .ok address) ↔ memory.cells.size < 131008)
  /-- The address is that of the text's slot. -/
  address : ∀ cell address, call.cell? = some cell → answer = .ok address →
    ∃ slot, next.slot? cell.name = some slot ∧ address = 512 + 8 * slot ∧ address ≤ 0x100000 - 8

/-- Memory in order whose cells are the references without repetitions has been filled in their
order. -/
theorem Memory.Indexed.filledInOrder {memory : Memory} (h : memory.Indexed)
    {references : List Cell}
    (hcells : memory.cells.toList = references.eraseDupsBy Memory.sameText) :
    FilledInOrder memory references where
  cells := hcells
  slots := h.slots
  words := h.words
  below := by
    have hwords := h.words
    simp only [maxWords, programBytes, wordBytes, cellAddress] at hwords ⊢
    omega
  apart := by
    intro slot other hlt
    simp only [cellAddress, cellBytes]
    omega
  within := by
    intro slot hslot
    have hle := cellAddress_le_iff.mpr (Nat.lt_of_lt_of_le hslot h.size)
    simp only [cellAddress, programBytes, cellBytes, maxAddress] at hle ⊢
    omega

/-- One call answers as the order asks, by what can happen to it: it fails, finds its text, or
adds a cell. -/
theorem Called.answersInOrder {memory next : Memory} {call : MemoryCall}
    {answer : Except MemoryError Nat} (hcall : Called memory call answer next)
    (h : memory.Indexed) : AnswersInOrder memory call answer next where
  failed := by
    intro error herror
    subst herror
    exact hcall.eq_of_error
  pushed := by
    intro instruction hpush
    subst hpush
    cases hcall with
    | pushed _ hroom =>
        refine ⟨⟨fun _ => hroom, fun _ => ⟨_, rfl⟩⟩, fun index hindex => ?_⟩
        exact ⟨(Except.ok.inj hindex).symm, rfl⟩
    | programFull _ hroom =>
        refine ⟨⟨fun hok => ?_, fun hlt => absurd hlt hroom⟩, fun index hindex => ?_⟩
        · obtain ⟨index, hindex⟩ := hok
          cases hindex
        · cases hindex
    | found hcell => cases hcell
    | added hcell => cases hcell
    | dataFull hcell => cases hcell
  -- a text with a slot is found, and the other ways to answer contradict that
  found := by
    intro cell slot hcell hslot
    cases hcall with
    | found hother hfound =>
        obtain rfl := Option.some.inj (hcell.symm.trans hother)
        obtain rfl := Option.some.inj (hslot.symm.trans hfound)
        exact ⟨rfl, rfl⟩
    | added hother hnone =>
        obtain rfl := Option.some.inj (hcell.symm.trans hother)
        rw [hslot] at hnone
        cases hnone
    | dataFull hother hnone =>
        obtain rfl := Option.some.inj (hcell.symm.trans hother)
        rw [hslot] at hnone
        cases hnone
    | unreadable hbits => simp [MemoryCall.cell?, hbits] at hcell
    | pushed => cases hcell
    | programFull => cases hcell
  -- a new text is added exactly if there is room for one more cell
  added := by
    intro cell hcell hslot
    cases hcall with
    | found hother hfound =>
        obtain rfl := Option.some.inj (hcell.symm.trans hother)
        rw [hslot] at hfound
        cases hfound
    | added hother hnone hroom =>
        exact ⟨fun _ => cellAddress_le_iff.mp hroom, fun _ => ⟨_, rfl⟩⟩
    | dataFull hother hnone hroom =>
        refine ⟨fun hok => ?_, fun hlt => absurd (cellAddress_le_iff.mpr hlt) hroom⟩
        obtain ⟨address, haddress⟩ := hok
        cases haddress
    | unreadable hbits => simp [MemoryCall.cell?, hbits] at hcell
    | pushed => cases hcell
    | programFull => cases hcell
  address := by
    intro cell address hcell haddress
    subst haddress
    obtain ⟨slot, hslot, hlt, rfl⟩ := hcall.address_eq h hcell
    refine ⟨slot, hslot, rfl, ?_⟩
    have hle := cellAddress_le_iff.mpr hlt
    simp only [cellAddress, programBytes, cellBytes, maxAddress] at hle ⊢
    omega

/-- **Calls fill memory in order,** whatever they ask for and whether or not they
succeed.  Texts have their slots in the order of their first successful references;
no later call moves a text, changes the number that its cell begins with or moves an
instruction; and each call is answered as it should be. -/
theorem calls_fill_in_order (calls later : List MemoryCall) :
    FilledInOrder (Memory.after {} calls) (Memory.references {} calls) ∧
      (Memory.after {} calls).Grows (Memory.after {} (calls ++ later)) ∧
      ∀ call, AnswersInOrder (Memory.after {} calls) call
        ((Memory.after {} calls).call call).1 ((Memory.after {} calls).call call).2 := by
  have hindexed := Memory.indexed_empty.after calls
  refine ⟨hindexed.filledInOrder ?_, ?_, ?_⟩
  · have hnew : ∀ cell ∈ Memory.references {} calls, Memory.isNew {} cell = true := by
      intro cell _
      simp [Memory.isNew, Memory.slot?]
    rw [Memory.cells_after, List.filter_eq_self.mpr hnew]
    rfl
  · rw [Memory.after_append]
    exact Memory.grows_after _ later
  · intro call
    exact (Called.of_call rfl).answersInOrder hindexed

/-- The first reference wins: a text that was a variable first begins as zero. -/
example : (Memory.after {} [.allocateLiteral "1", .allocateLiteral "1x", .allocateVariable "2",
    .allocateLiteral "2", .allocateLiteral "1"]).cells.toList =
      [⟨"1", 0x3ff0000000000000⟩, ⟨"2", 0⟩] := by
  decide +kernel

end AtomCompiler
