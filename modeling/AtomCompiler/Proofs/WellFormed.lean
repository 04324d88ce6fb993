import AtomCompiler.Proofs.Emittable
import AtomCompiler.Proofs.Refinement
import AtomCompiler.Proofs.Shortening
import Mathlib.Data.Bool.Count

/-!
# Emitted programs are well formed

The machine must never run off the program, jump into the middle of a conditional
jump, or use an address that is no cell.  An emitted program is such that it cannot,
whether or not redundant loads and stores were dropped from it.

* `Atom.code_cases` — everything that stands in the code of an atom;
* `Emitted.cases` — everything that stands in a program;
* `KeptAt` — where an instruction that is kept stands in what is left;
* `WellFormed` — what is said of a program, in terms of what was written before
  instructions were dropped and addresses filled in;
* `emit_wellFormed` — every emitted program is well formed.
-/

namespace AtomCompiler

/-- Whether an operation has the address of a cell. -/
def Operation.usesCell : Operation → Bool
  | arithmetic _ => true
  | compare => true
  | load => true
  | store => true
  | clear => false
  | jump => false
  | halt => false

/-! ## Whole programs -/

/-- **Everything that stands in the code of an atom:** instructions that use the cells
of its texts, instructions that clear the accumulator, and a jump to its goal behind a
comparison. -/
theorem Atom.code_cases {atom : Atom} {cellOf goal : String → Nat} {index : Nat}
    {instruction : Instruction} (h : (atom.code cellOf goal)[index]? = some instruction)
    (start : Nat) :
    (instruction.operation.usesCell = true ∧ ∃ text ∈ atom.texts,
      instruction.address = cellOf text) ∨
    instruction.operation = .clear ∨
    ∃ before other target, index = before + 1 ∧ (atom.code cellOf goal)[before]? = some other ∧
      other.operation = .compare ∧ atom.reference? start = some (start + index, target) ∧
      instruction = { Instruction.jump with address := Relocations.addressOf (goal target) } := by
  have huses : ∀ text ∈ atom.texts, ∀ operation : Operation, operation.usesCell = true →
      ∀ instruction : Instruction, instruction.operation = operation →
        instruction.address = cellOf text → instruction.operation.usesCell = true ∧
          ∃ text ∈ atom.texts, instruction.address = cellOf text := by
    rintro text htext operation huses instruction rfl haddress
    exact ⟨huses, text, htext, haddress⟩
  cases atom with
  | arithmetic operation left right result =>
      rcases index with _ | _ | _ | index <;> cases h
      · exact Or.inl (huses left (by simp [texts]) .load rfl _ rfl rfl)
      · exact Or.inl (huses right (by simp [texts]) (.arithmetic operation) rfl _ rfl rfl)
      · exact Or.inl (huses result (by simp [texts]) .store rfl _ rfl rfl)
  | negate source result =>
      rcases index with _ | _ | _ | index <;> cases h
      · exact Or.inl (huses "0" (by simp [texts]) .load rfl _ rfl rfl)
      · exact Or.inl (huses source (by simp [texts]) (.arithmetic .subtract) rfl _ rfl rfl)
      · exact Or.inl (huses result (by simp [texts]) .store rfl _ rfl rfl)
  | move source result =>
      rcases index with _ | _ | index <;> cases h
      · by_cases hzero : source = "0"
        · exact Or.inr (Or.inl (by simp [hzero]))
        · exact Or.inl (huses source (by simp [texts, hzero]) .load rfl _ (by simp [hzero])
            (by simp [hzero]))
      · exact Or.inl (huses result (by by_cases hzero : source = "0" <;> simp [texts, hzero])
          .store rfl _ rfl rfl)
  | test left right comparison target =>
      cases hopposite : comparison.opposite? with
      | none => simp [code, hopposite] at h
      | some opposite =>
          simp only [code, hopposite] at h
          rcases index with _ | _ | _ | index <;> cases h
          · exact Or.inl (huses left (by simp [texts]) .load rfl _ rfl rfl)
          · exact Or.inl (huses right (by simp [texts]) .compare rfl _ rfl rfl)
          · exact Or.inr (Or.inr ⟨1, .compare opposite (cellOf right), target, rfl,
              by simp [code, hopposite], rfl, by simp [reference?, hopposite], rfl⟩)
  | jump target =>
      rcases index with _ | _ | index <;> cases h
      · exact Or.inl (huses "0" (by simp [texts]) .compare rfl _ rfl rfl)
      · exact Or.inr (Or.inr ⟨0, .compare .always (cellOf "0"), target, rfl, rfl, rfl, rfl, rfl⟩)
  | label name => cases h

/-- A jump waits in the list of all jumps. -/
theorem mem_referencesFrom_of_getElem? {atoms : List Atom} {place : Nat} {atom : Atom}
    {entry : Nat × String} (hatom : atoms[place]? = some atom)
    (h : atom.reference? (wordsOf (atoms.take place)) = some entry) :
    entry ∈ referencesFrom 0 atoms := by
  have hsplit := referencesFrom_append 0 (atoms.take place) (atom :: atoms.drop (place + 1))
  obtain ⟨hlt, hget⟩ := List.getElem?_eq_some_iff.mp hatom
  rw [← hget, ← List.drop_eq_getElem_cons hlt, List.take_append_drop, Nat.zero_add] at hsplit
  rw [hsplit, List.drop_eq_getElem_cons hlt, hget, referencesFrom, h]
  simp

/-- Every index belongs to the code of an atom. -/
theorem exists_atom_of_lt_wordsOf {atoms : List Atom} {place : Nat} (h : place < wordsOf atoms) :
    ∃ number atom index, atoms[number]? = some atom ∧
      place = wordsOf (atoms.take number) + index ∧ index < atom.words := by
  induction atoms generalizing place with
  | nil => simp at h
  | cons atom atoms ih =>
      by_cases hfirst : place < atom.words
      · exact ⟨0, atom, place, rfl, by simp, hfirst⟩
      · rw [wordsOf_cons] at h
        obtain ⟨number, other, index, hother, hplace, hindex⟩ :=
          ih (show place - atom.words < wordsOf atoms by omega)
        refine ⟨number + 1, other, index, hother, ?_, hindex⟩
        rw [List.take_succ_cons, wordsOf_cons]
        omega

namespace Emitted

variable {atoms : List Atom} {memory : Memory} {place : Nat} {instruction : Instruction}

/-- **Everything that stands in a program:** the last instruction, which halts, and
before it instructions that use the cells of texts, instructions that clear the
accumulator, and jumps behind comparisons. -/
theorem cases (h : Emitted atoms memory) (hfetch : memory.program[place]? = some instruction) :
    (place = wordsOf atoms ∧ instruction = { operation := .halt }) ∨
    (instruction.operation.usesCell = true ∧ ∃ text, (memory.slot? text).isSome ∧
      instruction.address = memory.cellOf text) ∨
    instruction.operation = .clear ∨
    ∃ number index before other target, place = wordsOf (atoms.take number) + (index + 1) ∧
      place < wordsOf (atoms.take (number + 1)) ∧
      before + 1 = place ∧ memory.program[before]? = some other ∧ other.operation = .compare ∧
      (place, target) ∈ referencesFrom 0 atoms ∧
      instruction = { Instruction.jump with
        address := Relocations.addressOf (goalIn atoms target) } := by
  have hlt := (List.getElem?_eq_some_iff.mp hfetch).1
  rw [h.length_program] at hlt
  by_cases hlast : place = wordsOf atoms
  · subst hlast
    exact Or.inl ⟨rfl, Option.some.inj (hfetch.symm.trans h.fetch_halt)⟩
  · obtain ⟨number, atom, index, hatom, rfl, hindex⟩ :=
      exists_atom_of_lt_wordsOf (show place < wordsOf atoms by omega)
    have hcode : (atom.code memory.cellOf (goalIn atoms))[index]? = some instruction := by
      rw [← Atom.length_code memory.cellOf (goalIn atoms)] at hindex
      have hget := List.getElem?_eq_getElem hindex
      rw [hget, ← hfetch, h.fetch hatom hget]
    rcases Atom.code_cases hcode (wordsOf (atoms.take number)) with
      ⟨huses, text, htext, haddress⟩ | hclear |
        ⟨before, other, target, rfl, hother, hcompare, hreference, rfl⟩
    · exact Or.inr (Or.inl ⟨huses, text,
        h.slotted atom (List.mem_of_getElem? hatom) text htext, haddress⟩)
    · exact Or.inr (Or.inr (Or.inl hclear))
    · refine Or.inr (Or.inr (Or.inr ⟨number, before, wordsOf (atoms.take number) + before, other,
        target, rfl, ?_, rfl, h.fetch hatom hother, hcompare,
        mem_referencesFrom_of_getElem? hatom hreference, rfl⟩))
      rw [wordsOf_take_succ hatom]
      omega

/-- A jump stands behind a comparison in the code of an atom, and has the address of its
goal. -/
theorem jump (h : Emitted atoms memory) (hfetch : memory.program[place]? = some instruction)
    (hjump : instruction.operation = .jump) :
    ∃ number index before other target, place = wordsOf (atoms.take number) + (index + 1) ∧
      place < wordsOf (atoms.take (number + 1)) ∧
      before + 1 = place ∧ memory.program[before]? = some other ∧ other.operation = .compare ∧
      (place, target) ∈ referencesFrom 0 atoms ∧
      instruction = { Instruction.jump with
        address := Relocations.addressOf (goalIn atoms target) } := by
  rcases h.cases hfetch with ⟨-, rfl⟩ | ⟨huses, -⟩ | hclear | hcases
  · cases hjump
  · rw [hjump] at huses
    cases huses
  · rw [hjump] at hclear
    cases hclear
  · exact hcases

/-- Only the last instruction halts. -/
theorem not_halt (h : Emitted atoms memory) (hfetch : memory.program[place]? = some instruction)
    (hlt : place < wordsOf atoms) : instruction.operation ≠ .halt := by
  intro hhalt
  rcases h.cases hfetch with ⟨rfl, -⟩ | ⟨huses, -⟩ | hclear | ⟨_, _, _, _, _, -, -, -, -, -, -, rfl⟩
  · exact Nat.lt_irrefl _ hlt
  · rw [hhalt] at huses
    cases huses
  · rw [hhalt] at hclear
    cases hclear
  · cases hhalt

/-- A label never stands before a jump, since that stands in the middle of an atom. -/
theorem not_jump_of_label (h : Emitted atoms memory) {label : String}
    (hfetch : memory.program[goalIn atoms label]? = some instruction) :
    instruction.operation ≠ .jump := by
  intro hjump
  obtain ⟨number, index, _, _, _, hplace, hbound, -⟩ := h.jump hfetch hjump
  generalize hlabel : (labelPlace? atoms label).getD 0 = place at *
  have hgoal : goalIn atoms label = wordsOf (atoms.take place) := by rw [goalIn, hlabel]
  rw [hgoal] at hplace hbound
  by_cases hle : place ≤ number
  · have hwords := wordsOf_le_of_sublist (List.take_sublist_take_left hle (l := atoms))
    omega
  · have hwords := wordsOf_le_of_sublist
      (List.take_sublist_take_left (show number + 1 ≤ place by omega) (l := atoms))
    omega

end Emitted

/-! ## What is left of a program -/

/-- An instruction is kept, and stands in what is left behind all kept instructions that
stood before it. -/
def KeptAt (mask : List Bool) (index place : Nat) : Prop :=
  mask[index]? = some true ∧ place = (mask.take index).count true

/-- As many instructions are dropped before an index as it moves. -/
theorem moved_eq_count {mask : List Bool} {place : Nat} (h : place ≤ mask.length) :
    moved 0 mask place = (mask.take place).count true := by
  have hcount := (mask.take place).count_true_add_count_false
  rw [List.length_take, Nat.min_eq_left h] at hcount
  simp only [moved, Nat.sub_zero]
  omega

/-- An instruction that is kept stands where its index moves. -/
theorem keptAt_moved {mask : List Bool} {index : Nat} (h : mask[index]? = some true) :
    KeptAt mask index (moved 0 mask index) := by
  have hlt := (List.getElem?_eq_some_iff.mp h).1
  exact ⟨h, moved_eq_count (Nat.le_of_lt hlt)⟩

/-- The index of an instruction that is kept moves to where it stands. -/
theorem KeptAt.moved_eq {mask : List Bool} {index place : Nat} (h : KeptAt mask index place) :
    moved 0 mask index = place := by
  have hlt := (List.getElem?_eq_some_iff.mp h.1).1
  rw [moved_eq_count (Nat.le_of_lt hlt), h.2]

/-- Every instruction that is left was kept. -/
theorem exists_keptAt {mask : List Bool} {program : List Instruction} {place : Nat}
    {instruction : Instruction} (h : (keep mask program)[place]? = some instruction) :
    ∃ index, KeptAt mask index place ∧ program[index]? = some instruction := by
  induction mask generalizing program place with
  | nil => simp [keep] at h
  | cons kept mask ih =>
      cases program with
      | nil => cases kept <;> simp [keep] at h
      | cons first program =>
          cases kept with
          | false =>
              obtain ⟨index, ⟨hkept, hplace⟩, hfetch⟩ := ih h
              exact ⟨index + 1, ⟨hkept, by simpa using hplace⟩, hfetch⟩
          | true =>
              cases place with
              | zero => exact ⟨0, ⟨rfl, rfl⟩, h⟩
              | succ place =>
                  obtain ⟨index, ⟨hkept, hplace⟩, hfetch⟩ := ih h
                  exact ⟨index + 1, ⟨hkept, by simpa using hplace⟩, hfetch⟩

/-- What is kept of two parts is what is kept of each. -/
theorem keep_append {mask later : List Bool} {front back : List Instruction}
    (h : mask.length = front.length) :
    keep (mask ++ later) (front ++ back) = keep mask front ++ keep later back := by
  induction mask generalizing front with
  | nil =>
      obtain rfl : front = [] := List.length_eq_zero_iff.mp h.symm
      rfl
  | cons kept mask ih =>
      cases front with
      | nil => simp at h
      | cons first front => cases kept <;> simp [keep, ih (by simpa using h)]

/-- From any index on there is a first instruction that is kept, if there is one at all. -/
theorem exists_first_kept {mask : List Bool} {last : Nat} (hlast : mask[last]? = some true)
    {place : Nat} (hle : place ≤ last) :
    ∃ first, place ≤ first ∧ mask[first]? = some true ∧
      ∀ between, place ≤ between → between < first → mask[between]? = some false := by
  induction hcount : last - place generalizing place with
  | zero =>
      obtain rfl : place = last := by omega
      exact ⟨place, Nat.le_refl _, hlast, fun between h₁ h₂ => by omega⟩
  | succ count ih =>
      have hlt : place < mask.length := by
        have hlt := (List.getElem?_eq_some_iff.mp hlast).1
        omega
      cases hkept : mask[place] with
      | true =>
          refine ⟨place, Nat.le_refl _, ?_, fun between h₁ h₂ => by omega⟩
          rw [List.getElem?_eq_getElem hlt, hkept]
      | false =>
          obtain ⟨first, hfirst, htrue, hbetween⟩ :=
            ih (show place + 1 ≤ last by omega) (by omega)
          refine ⟨first, by omega, htrue, fun between h₁ h₂ => ?_⟩
          by_cases heq : between = place
          · rw [heq, List.getElem?_eq_getElem hlt, hkept]
          · exact hbetween between (by omega) h₂

/-- An index moves to where the first kept instruction behind it moves. -/
theorem moved_eq_of_dropped {mask : List Bool} {place first : Nat} (hle : place ≤ first)
    (h : ∀ between, place ≤ between → between < first → mask[between]? = some false) :
    moved 0 mask first = moved 0 mask place := by
  induction first with
  | zero => rw [Nat.le_zero.mp hle]
  | succ first ih =>
      by_cases heq : place = first + 1
      · rw [heq]
      · rw [moved_add_one (h first (by omega) (Nat.lt_succ_self _)),
          ih (by omega) fun between h₁ h₂ => h between h₁ (by omega)]
        rfl

/-! ## Well-formed programs -/

/-- A jump before it has an address; any other instruction as it is. -/
def Instruction.blank (instruction : Instruction) : Instruction :=
  if instruction.operation = .jump then { instruction with address := 0 } else instruction

/-- **What is said of an emitted program,** in terms of what was written before
instructions were dropped and addresses were filled in, and of which instructions were
kept. -/
structure WellFormed (written : Emission) (mask : List Bool) (memory : Memory) : Prop where
  /-- The program is what was kept, with addresses in its jumps. -/
  kept : memory.program.map Instruction.blank = keep mask written.memory.program
  /-- The machine halts at the last instruction and nowhere else. -/
  halts : ∃ front, memory.program = front ++ [{ operation := .halt }] ∧
    ∀ instruction ∈ front, instruction.operation ≠ .halt
  /-- A jump stands right behind a comparison. -/
  compares : ∀ (place : Nat) (instruction : Instruction),
    memory.program[place]? = some instruction → instruction.operation = .jump →
    ∃ before other, before + 1 = place ∧ memory.program[before]? = some other ∧
      other.operation = .compare
  /-- A jump goes to the first kept instruction at or behind the place of its label, and
  that is no jump. -/
  lands : ∀ (place : Nat) (instruction : Instruction),
    memory.program[place]? = some instruction → instruction.operation = .jump →
    ∃ index label recorded first goal, KeptAt mask index place ∧
      (index, label) ∈ written.relocations.references ∧
      written.relocations.labelIndex? label = some recorded ∧
      recorded ≤ first ∧ KeptAt mask first goal ∧
      (∀ between, recorded ≤ between → between < first → mask[between]? = some false) ∧
      instruction.address = wordBytes * goal ∧
      ∃ target, memory.program[goal]? = some target ∧ target.operation ≠ .jump
  /-- All other addresses are those of cells. -/
  cells : ∀ instruction ∈ memory.program, instruction.operation.usesCell = true →
    ∃ slot < memory.cells.size, instruction.address = cellAddress slot

/-! ## Dropping instructions from a well-formed program -/

section Left

variable {atoms : List Atom} {memory : Memory} {mask : List Bool}

/-- At the place of a kept instruction stands this instruction, redirected. -/
theorem fetch_of_keptAt {program : List Instruction} (hlength : mask.length = program.length)
    {index place : Nat} (h : KeptAt mask index place) :
    (shortenedProgram mask program)[place]? =
      program[index]?.map (Instruction.redirect mask) := by
  rw [← h.moved_eq]
  exact getElem?_shortenedProgram hlength h.1

/-- Every instruction of what is left is a kept one, redirected. -/
theorem exists_keptAt_of_fetch {program : List Instruction} {place : Nat}
    {instruction : Instruction}
    (h : (shortenedProgram mask program)[place]? = some instruction) :
    ∃ index original, KeptAt mask index place ∧ program[index]? = some original ∧
      instruction = original.redirect mask := by
  rw [shortenedProgram, List.getElem?_map] at h
  obtain ⟨original, horiginal, rfl⟩ := Option.map_eq_some_iff.mp h
  obtain ⟨index, hkept, hfetch⟩ := exists_keptAt horiginal
  exact ⟨index, original, hkept, hfetch, rfl⟩

/-- Nothing but loads and stores is dropped from a program. -/
structure DropsTransfers (mask : List Bool) (program : List Instruction) : Prop where
  length : mask.length = program.length
  dropped : ∀ (place : Nat) (instruction : Instruction), mask[place]? = some false →
    program[place]? = some instruction → instruction.isTransfer = true

/-- An instruction that neither loads nor stores is kept. -/
theorem DropsTransfers.kept {program : List Instruction} (h : DropsTransfers mask program)
    {place : Nat} {instruction : Instruction} (hfetch : program[place]? = some instruction)
    (hnot : instruction.isTransfer = false) : mask[place]? = some true := by
  have hlt := (List.getElem?_eq_some_iff.mp hfetch).1
  rw [← h.length] at hlt
  cases hkept : mask[place] with
  | true => rw [List.getElem?_eq_getElem hlt, hkept]
  | false =>
      have htransfer := h.dropped place instruction
        (by rw [List.getElem?_eq_getElem hlt, hkept]) hfetch
      rw [hnot] at htransfer
      cases htransfer

variable (hemitted : Emitted atoms memory) (hdrops : DropsTransfers mask memory.program)
include hemitted hdrops

/-- The last instruction is kept, and it is the only one that halts. -/
theorem halts_left : ∃ front, shortenedProgram mask memory.program =
    front ++ [{ operation := .halt }] ∧
      ∀ instruction ∈ front, instruction.operation ≠ .halt := by
  have hlast := hdrops.kept hemitted.fetch_halt rfl
  have hlength := hdrops.length
  rw [hemitted.length_program] at hlength
  have hmask : mask.take (wordsOf atoms) ++ [true] = mask := by
    obtain ⟨hlt, hget⟩ := List.getElem?_eq_some_iff.mp hlast
    rw [← hget, List.take_append_getElem hlt, List.take_of_length_le (by omega)]
  have hprogram := hemitted.program
  generalize hfront : atoms.flatMap (Atom.code memory.cellOf (goalIn atoms)) = front at hprogram
  have hfrontLength : front.length = wordsOf atoms := by rw [← hfront, length_flatMap_code]
  have hkeep : keep mask memory.program =
      keep (mask.take (wordsOf atoms)) front ++ [{ operation := .halt }] := by
    have happend : keep (mask.take (wordsOf atoms) ++ [true]) (front ++ [{ operation := .halt }]) =
        keep (mask.take (wordsOf atoms)) front ++ keep [true] [{ operation := .halt }] :=
      keep_append (by rw [List.length_take]; omega)
    rw [hmask, ← hprogram] at happend
    exact happend
  refine ⟨(keep (mask.take (wordsOf atoms)) front).map (Instruction.redirect mask), ?_, ?_⟩
  · rw [shortenedProgram, hkeep, List.map_append]
    rfl
  · intro instruction hmem
    obtain ⟨original, horiginal, rfl⟩ := List.mem_map.mp hmem
    obtain ⟨place, hplace⟩ := List.mem_iff_getElem?.mp horiginal
    obtain ⟨index, -, hindex⟩ := exists_keptAt hplace
    have hlt := (List.getElem?_eq_some_iff.mp hindex).1
    have hfetch : memory.program[index]? = some original := by
      rw [hprogram, List.getElem?_append_left hlt, hindex]
    rw [Instruction.operation_redirect]
    exact hemitted.not_halt hfetch (by omega)

/-- A jump keeps its comparison. -/
theorem compares_left {place : Nat} {instruction : Instruction}
    (hfetch : (shortenedProgram mask memory.program)[place]? = some instruction)
    (hjump : instruction.operation = .jump) :
    ∃ before other, before + 1 = place ∧
      (shortenedProgram mask memory.program)[before]? = some other ∧
      other.operation = .compare := by
  obtain ⟨index, original, hkept, horiginal, rfl⟩ := exists_keptAt_of_fetch hfetch
  rw [Instruction.operation_redirect] at hjump
  obtain ⟨-, -, before, other, -, -, -, rfl, hother, hcompare, -⟩ :=
    hemitted.jump horiginal hjump
  have hcomparison := hdrops.kept hother
    (by simp [Instruction.isTransfer, hcompare])
  refine ⟨moved 0 mask before, other.redirect mask, ?_, ?_, ?_⟩
  · rw [← hkept.moved_eq, moved_add_one hcomparison]
    rfl
  · rw [fetch_of_keptAt hdrops.length (keptAt_moved hcomparison), hother]
    rfl
  · rw [Instruction.operation_redirect, hcompare]

/-- The first kept instruction behind a label is no jump: its comparison would be kept
too. -/
theorem not_jump_of_first {label : String} {first : Nat} {instruction : Instruction}
    (hle : goalIn atoms label ≤ first) (hfetch : memory.program[first]? = some instruction)
    (hbetween : ∀ between, goalIn atoms label ≤ between → between < first →
      mask[between]? = some false) : instruction.operation ≠ .jump := by
  intro hjump
  by_cases heq : goalIn atoms label = first
  · rw [← heq] at hfetch
    exact hemitted.not_jump_of_label hfetch hjump
  · obtain ⟨-, -, before, other, -, -, -, hbefore, hother, hcompare, -⟩ :=
      hemitted.jump hfetch hjump
    have htransfer := hdrops.dropped before other (hbetween before (by omega) (by omega)) hother
    simp [Instruction.isTransfer, hcompare] at htransfer

end Left

/-! ## Emitted programs -/

/-- Redirecting changes nothing but the address. -/
theorem Instruction.blank_redirect (mask : List Bool) (instruction : Instruction) :
    (instruction.redirect mask).blank = instruction.blank := by
  by_cases hjump : instruction.operation = .jump
  · simp [redirect, blank, hjump]
  · simp [redirect, blank, hjump]

/-- It does not matter whether instructions are changed before or after some are dropped. -/
theorem keep_map (mask : List Bool) (change : Instruction → Instruction)
    (program : List Instruction) :
    keep mask (program.map change) = (keep mask program).map change := by
  induction mask generalizing program with
  | nil => rfl
  | cons kept mask ih =>
      cases program with
      | nil => cases kept <;> rfl
      | cons first program => cases kept <;> simp [keep, ih]

/-- Without its address the code of an atom is what was written. -/
theorem Atom.map_blank_code (cellOf goal : String → Nat) (atom : Atom) :
    (atom.code cellOf goal).map Instruction.blank = atom.code cellOf fun _ => 0 := by
  cases atom with
  | test left right comparison target =>
      cases hopposite : comparison.opposite? <;>
        simp [code, hopposite, Instruction.blank, Instruction.compare, Instruction.jump,
          Relocations.addressOf]
  | move source result =>
      by_cases hzero : source = "0" <;> simp [code, hzero, Instruction.blank]
  | _ =>
      simp [code, Instruction.blank, Instruction.compare, Instruction.jump, Relocations.addressOf]

/-- Which instructions are kept of what was written. -/
def Emission.kept (written : Emission) (shortened : Bool) : List Bool :=
  if shortened then survivors 0 written.relocations written.memory.program
  else written.memory.program.map fun _ => true

/-- An emission that succeeds has written its atoms, and only the addresses of its jumps
are changed after that. -/
theorem exists_written_of_emit {atoms : List Atom} {memory : Memory}
    (h : emit atoms false = .ok memory) :
    ∃ before : Emission, Emission.ofAtoms atoms = .ok (before.append { operation := .halt }) ∧
      before.Wrote atoms ∧ before.memory.Extends memory := by
  rw [emit_eq_bind] at h
  obtain ⟨emission, hemission, h⟩ := bind_eq_ok h
  obtain ⟨before, hwrote, -, rfl⟩ := Emission.ofAtoms_eq_ok hemission
  obtain ⟨-, hslots, -⟩ := (Emission.resolve_succeedsIff _).property memory h
  refine ⟨before, hemission, hwrote, fun text slot hslot => ?_⟩
  rw [Memory.slot?, hslots]
  exact hslot

section Assembly

variable {atoms : List Atom} {memory : Memory} {before : Emission} {mask : List Bool}

/-- A jump goes to the first kept instruction at or behind the place of its label. -/
theorem lands_left (hemitted : Emitted atoms memory) (hwrote : before.Wrote atoms)
    (hdrops : DropsTransfers mask memory.program) {place : Nat} {instruction : Instruction}
    (hfetch : (shortenedProgram mask memory.program)[place]? = some instruction)
    (hjump : instruction.operation = .jump) :
    ∃ index label recorded first goal, KeptAt mask index place ∧
      (index, label) ∈ before.relocations.references ∧
      before.relocations.labelIndex? label = some recorded ∧
      recorded ≤ first ∧ KeptAt mask first goal ∧
      (∀ between, recorded ≤ between → between < first → mask[between]? = some false) ∧
      instruction.address = wordBytes * goal ∧
      ∃ target, (shortenedProgram mask memory.program)[goal]? = some target ∧
        target.operation ≠ .jump := by
  obtain ⟨index, original, hkept, horiginal, rfl⟩ := exists_keptAt_of_fetch hfetch
  rw [Instruction.operation_redirect] at hjump
  obtain ⟨-, -, -, -, label, -, -, -, -, -, hmem, rfl⟩ := hemitted.jump horiginal hjump
  have hlast := hdrops.kept hemitted.fetch_halt rfl
  have hrecorded : before.relocations.labelIndex? label = some (goalIn atoms label) := by
    obtain ⟨number, hnumber⟩ := hemitted.targets _ hmem
    rw [hwrote.labels, hnumber, goalIn, hnumber]
    rfl
  obtain ⟨first, hle, hfirst, hbetween⟩ := exists_first_kept hlast
    (wordsOf_take_le atoms ((labelPlace? atoms label).getD 0))
  obtain ⟨target, htarget⟩ : ∃ target, memory.program[first]? = some target := by
    have hlt := (List.getElem?_eq_some_iff.mp hfirst).1
    rw [hdrops.length] at hlt
    exact ⟨_, List.getElem?_eq_getElem hlt⟩
  have hgoal : moved 0 mask first = moved 0 mask (goalIn atoms label) :=
    moved_eq_of_dropped hle hbetween
  refine ⟨index, label, goalIn atoms label, first, moved 0 mask first, hkept, ?_, hrecorded, hle,
    keptAt_moved hfirst, hbetween, ?_, target.redirect mask, ?_, ?_⟩
  · rw [hwrote.references]
    exact hmem
  · -- the address is that of the label, moved along
    have hbound := hemitted.length_le
    rw [hemitted.length_program] at hbound
    have hsmall : moved 0 mask (goalIn atoms label) < 0x40000000 := by
      have hmoved := moved_le mask (goalIn atoms label)
      have hwords : goalIn atoms label ≤ wordsOf atoms := wordsOf_take_le _ _
      simp only [programBytes, wordBytes] at hbound
      omega
    rw [hgoal, Instruction.redirect, if_pos hjump, ← Relocations.addressOf_of_lt hsmall]
    simp only [hemitted.addressOf_goalIn]
  · rw [fetch_of_keptAt hdrops.length (keptAt_moved hfirst), htarget]
    rfl
  · rw [Instruction.operation_redirect]
    exact not_jump_of_first hemitted hdrops hle htarget hbetween

/-- **What is left of an emitted program is well formed,** if only loads and stores were
dropped from it. -/
theorem wellFormed_left (hemitted : Emitted atoms memory) (hholds : memory.Holds (textsOf atoms))
    (hwrote : before.Wrote atoms) (hextends : before.memory.Extends memory)
    (hdrops : DropsTransfers mask memory.program) :
    WellFormed (before.append { operation := .halt }) mask
      { memory with program := shortenedProgram mask memory.program } where
  kept := by
    have hblank : memory.program.map Instruction.blank =
        before.memory.program ++ [{ operation := .halt }] := by
      rw [hemitted.program, hwrote.program hextends, List.map_append, List.map_flatMap]
      simp [Atom.map_blank_code, Instruction.blank]
    rw [Emission.program_append, ← hblank, keep_map, shortenedProgram, List.map_map]
    exact List.map_congr_left fun instruction _ => instruction.blank_redirect mask
  halts := halts_left hemitted hdrops
  compares := fun _ _ => compares_left hemitted hdrops
  lands := fun _ _ => lands_left hemitted hwrote hdrops
  cells := by
    intro instruction hmem huses
    obtain ⟨place, hplace⟩ := List.mem_iff_getElem?.mp hmem
    obtain ⟨index, original, -, horiginal, rfl⟩ := exists_keptAt_of_fetch hplace
    rw [Instruction.operation_redirect] at huses
    rcases hemitted.cases horiginal with ⟨-, rfl⟩ | ⟨-, text, htext, haddress⟩ | hclear |
      ⟨_, _, _, _, _, -, -, -, -, -, -, rfl⟩
    · cases huses
    · obtain ⟨slot, hslot⟩ := Option.isSome_iff_exists.mp htext
      refine ⟨slot, hholds.slot_lt text slot hslot, ?_⟩
      rw [Instruction.redirect_of_ne (by rintro heq; rw [heq] at huses; cases huses), haddress,
        Memory.cellOf_eq hslot]
    · rw [hclear] at huses
      cases huses
    · cases huses

end Assembly

/-- Where all instructions are kept, the program is left as it is. -/
theorem shortenedProgram_of_all {atoms : List Atom} {memory : Memory}
    (hemitted : Emitted atoms memory) {mask : List Bool}
    (hmask : mask = memory.program.map fun _ => true) :
    shortenedProgram mask memory.program = memory.program := by
  subst hmask
  rw [shortenedProgram, keep_map_true]
  refine (List.map_congr_left fun instruction hmem => ?_).trans (List.map_id _)
  by_cases hjump : instruction.operation = .jump
  · obtain ⟨place, hplace⟩ := List.mem_iff_getElem?.mp hmem
    obtain ⟨-, -, -, -, label, -, -, -, -, -, -, rfl⟩ := hemitted.jump hplace hjump
    rw [Instruction.redirect, if_pos hjump, moved_map_true]
    simp only [hemitted.addressOf_goalIn, id]
  · rw [Instruction.redirect_of_ne hjump]
    rfl

/-- What is emitted is what is left of the whole program. -/
theorem left_of_emit {atoms : List Atom} {shortened : Bool} {memory : Memory} {written : Emission}
    (hwritten : Emission.ofAtoms atoms = .ok written) (h : emit atoms shortened = .ok memory) :
    ∃ whole, emit atoms false = .ok whole ∧
      memory = { whole with program := shortenedProgram (written.kept shortened) whole.program } ∧
      DropsTransfers (written.kept shortened) whole.program := by
  cases shortened with
  | true =>
      have hmask : written.kept true = survivorsOf atoms := by
        simp only [survivorsOf, hwritten]
        rfl
      rw [emit_shortened] at h
      obtain ⟨whole, hwhole, rfl⟩ := map_eq_ok h
      rw [hmask]
      obtain ⟨hlength, hdropped⟩ := survivorsOf_spec hwhole
      exact ⟨whole, hwhole, rfl, hlength, hdropped⟩
  | false =>
      have hlength : written.memory.program.length = memory.program.length := by
        rw [((emit_succeedsIff atoms).property memory h).1,
          ((Emission.ofAtoms_succeedsIff atoms).property written hwritten).1.length]
      have hmask : written.kept false = memory.program.map fun _ => true := by
        simp only [Emission.kept, Bool.false_eq_true, if_false, List.map_const', hlength]
      refine ⟨memory, h, ?_, by rw [hmask, List.length_map], ?_⟩
      · rw [shortenedProgram_of_all (emitted_of_emit h) hmask]
      · intro place instruction hfalse
        rw [hmask] at hfalse
        obtain ⟨_, -, hfalse⟩ := List.mem_map.mp (List.mem_of_getElem? hfalse)
        cases hfalse

/-- An emission that succeeds has written a whole program first, and what is emitted is
what is left of it. -/
theorem exists_left_of_emit {atoms : List Atom} {shortened : Bool} {memory : Memory}
    (h : emit atoms shortened = .ok memory) :
    ∃ written whole, Emission.ofAtoms atoms = .ok written ∧ emit atoms false = .ok whole ∧
      memory = { whole with program := shortenedProgram (written.kept shortened) whole.program } ∧
      DropsTransfers (written.kept shortened) whole.program := by
  obtain ⟨written, hwritten⟩ : ∃ written, Emission.ofAtoms atoms = .ok written := by
    rw [emit_eq_bind] at h
    obtain ⟨written, hwritten, -⟩ := bind_eq_ok h
    exact ⟨written, hwritten⟩
  obtain ⟨whole, hwhole, hmemory, hdrops⟩ := left_of_emit hwritten h
  exact ⟨written, whole, hwritten, hwhole, hmemory, hdrops⟩

/-- **Every emitted program is well formed,** with or without redundant loads and
stores. -/
theorem emit_wellFormed {atoms : List Atom} {shortened : Bool} {memory : Memory}
    (h : emit atoms shortened = .ok memory) :
    ∃ written, Emission.ofAtoms atoms = .ok written ∧
      WellFormed written (written.kept shortened) memory := by
  obtain ⟨written, hwritten⟩ : ∃ written, Emission.ofAtoms atoms = .ok written := by
    rw [emit_eq_bind] at h
    obtain ⟨written, hwritten, -⟩ := bind_eq_ok h
    exact ⟨written, hwritten⟩
  obtain ⟨whole, hwhole, rfl, hdrops⟩ := left_of_emit hwritten h
  obtain ⟨before, hbefore, hwrote, hextends⟩ := exists_written_of_emit hwhole
  obtain rfl := Except.ok.inj (hwritten.symm.trans hbefore)
  exact ⟨_, hwritten, wellFormed_left (emitted_of_emit hwhole)
    ((emit_succeedsIff atoms).property whole hwhole).2 hwrote hextends hdrops⟩

/-- Two labels before a load that is dropped, and one at the very end. -/
def crowdedLabels : List Atom :=
  [.move "5" "x", .move "x" "y", .label "before", .label "again", .move "y" "y",
    .test "y" "9" .less "end", .arithmetic .add "y" "1" "y", .jump "again", .label "end"]

/-- Five of fifteen instructions are dropped, and the jumps go to the comparison and to
the end. -/
theorem emit_wellFormed_crowdedLabels :
    ∃ memory written, emit crowdedLabels true = .ok memory ∧
      memory.program.map Instruction.address = [512, 528, 536, 36, 528, 544, 528, 552, 8, 0] ∧
      Emission.ofAtoms crowdedLabels = .ok written ∧
      WellFormed written (written.kept true) memory := by
  have hmemory : ((emit crowdedLabels true).toOption.map fun memory =>
      memory.program.map Instruction.address) =
        some [512, 528, 536, 36, 528, 544, 528, 552, 8, 0] := by
    decide +kernel
  obtain ⟨memory, hmemory, haddresses⟩ := Option.map_eq_some_iff.mp hmemory
  have hmemory := eq_ok_of_toOption hmemory
  obtain ⟨written, hwritten, hformed⟩ := emit_wellFormed hmemory
  exact ⟨memory, written, hmemory, haddresses, hwritten, hformed⟩

end AtomCompiler
