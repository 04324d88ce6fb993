import AtomCompiler.Machine.Peephole

/-!
# What is left of a program

The pass over neighbouring loads and stores works on a program and two tables at
once, and moves everything behind an instruction that it drops.  Here its outcome
is said in terms of the program it began with: which instructions are kept, and
where their indices have moved.

* `survivors` — which instructions are kept;
* `moved` — where an index moves;
* `peepholeFrom_program` — what is left are the instructions that are kept;
* `peepholeFrom_tables` — every index in the tables has moved along;
* `getElem?_keep` — a kept instruction stands where its index has moved.
-/

namespace AtomCompiler

/-- Whether an instruction loads the accumulator from a cell or stores it. -/
def Instruction.isTransfer (instruction : Instruction) : Bool :=
  instruction.operation = .load || instruction.operation = .store

/-- Which instructions of a program are kept, from the instruction with the given
index on. -/
def survivors (index : Nat) (relocations : Relocations) : List Instruction → List Bool
  | first :: second :: rest =>
    if isPair relocations index .load .store first second then
      false :: survivors index (relocations.remove index) (second :: rest)
    else if isPair relocations index .store .load first second then
      false :: false :: survivors index ((relocations.remove (index + 1)).remove index) rest
    else true :: survivors (index + 1) relocations (second :: rest)
  | program => program.map fun _ => true
termination_by program => program.length

/-- The instructions of a program that are kept. -/
def keep : List Bool → List Instruction → List Instruction
  | true :: mask, instruction :: program => instruction :: keep mask program
  | false :: mask, _ :: program => keep mask program
  | _, _ => []

/-- Where an index moves when the instructions from another index on are kept or
dropped: by as many places as are dropped before it. -/
def moved (index : Nat) (mask : List Bool) (place : Nat) : Nat :=
  place - (mask.take (place - index)).count false

/-! ## Moved indices -/

@[simp] theorem moved_zero (mask : List Bool) : moved 0 mask 0 = 0 := by
  simp [moved]

/-- An instruction that is kept moves nothing behind it. -/
theorem moved_true_cons (index : Nat) (mask : List Bool) (place : Nat) :
    moved index (true :: mask) place = moved (index + 1) mask place := by
  by_cases hle : place ≤ index
  · have hnow : place - index = 0 := by omega
    have hthen : place - (index + 1) = 0 := by omega
    simp [moved, hnow, hthen]
  · have hsub : place - index = place - (index + 1) + 1 := by omega
    simp [moved, hsub]

/-- An instruction that is dropped moves everything behind it by one. -/
theorem moved_false_cons (index : Nat) (mask : List Bool) (place : Nat) :
    moved index (false :: mask) place = moved index mask (Relocations.shift index place) := by
  by_cases hle : place ≤ index
  · have hnow : place - index = 0 := by omega
    simp [moved, Relocations.shift, hnow, Nat.not_lt.mpr hle]
  · have hlt : index < place := by omega
    have hsub : place - index = place - 1 - index + 1 := by omega
    simp only [moved, Relocations.shift, hlt, if_true, hsub, List.take_succ_cons,
      List.count_cons_self]
    omega

/-- Two instructions that stand side by side are taken out back to front. -/
theorem moved_false_false_cons (index : Nat) (mask : List Bool) (place : Nat) :
    moved index (false :: false :: mask) place =
      moved index mask (Relocations.shift index (Relocations.shift (index + 1) place)) := by
  have hshift : Relocations.shift index (Relocations.shift index place) =
      Relocations.shift index (Relocations.shift (index + 1) place) := by
    simp only [Relocations.shift]
    grind
  rw [moved_false_cons, moved_false_cons, hshift]

/-- Where everything is kept nothing moves. -/
theorem moved_map_true {α : Type} (index : Nat) (list : List α) (place : Nat) :
    moved index (list.map fun _ => true) place = place := by
  have hnone : ((list.map fun _ => true).take (place - index)).count false = 0 := by
    refine List.count_eq_zero.mpr fun hmem => ?_
    obtain ⟨_, -, hfalse⟩ := List.mem_map.mp (List.mem_of_mem_take hmem)
    cases hfalse
  rw [moved, hnone, Nat.sub_zero]

/-- Indices that are counted from one further on are moved alike. -/
theorem moved_succ (mask : List Bool) (place : Nat) :
    moved 1 mask (place + 1) = moved 0 mask place + 1 := by
  have hle : (mask.take place).count false ≤ place := by
    have hcount := List.count_le_length (a := false) (l := mask.take place)
    have hlength := List.length_take_le place mask
    omega
  simp only [moved, Nat.add_sub_cancel, Nat.sub_zero]
  omega

@[simp] theorem moved_true_cons_succ (mask : List Bool) (place : Nat) :
    moved 0 (true :: mask) (place + 1) = moved 0 mask place + 1 := by
  rw [moved_true_cons, moved_succ]

@[simp] theorem moved_false_cons_succ (mask : List Bool) (place : Nat) :
    moved 0 (false :: mask) (place + 1) = moved 0 mask place := by
  rw [moved_false_cons]
  simp [Relocations.shift]

/-- No index moves up. -/
theorem moved_le (mask : List Bool) (place : Nat) : moved 0 mask place ≤ place :=
  Nat.sub_le _ _

/-! ## Instructions that are kept -/

/-- Behind a kept instruction the next index stays the next, and a dropped one
gives its own to the next. -/
theorem moved_add_one {mask : List Bool} {place : Nat} {kept : Bool}
    (h : mask[place]? = some kept) :
    moved 0 mask (place + 1) = moved 0 mask place + kept.toNat := by
  induction mask generalizing place with
  | nil => simp at h
  | cons first mask ih =>
      cases place with
      | zero =>
          obtain rfl : first = kept := by simpa using h
          cases first <;> simp
      | succ place =>
          have hrest := ih (by simpa using h)
          cases first with
          | true =>
              rw [moved_true_cons_succ, moved_true_cons_succ, hrest]
              omega
          | false => rw [moved_false_cons_succ, moved_false_cons_succ, hrest]

/-- **A kept instruction stands where its index has moved.** -/
theorem getElem?_keep {mask : List Bool} {program : List Instruction}
    (hlength : mask.length = program.length) {place : Nat} (h : mask[place]? = some true) :
    (keep mask program)[moved 0 mask place]? = program[place]? := by
  induction mask generalizing program place with
  | nil => simp at h
  | cons kept mask ih =>
      cases program with
      | nil => simp at hlength
      | cons instruction program =>
          have hlength : mask.length = program.length := by simpa using hlength
          cases place with
          | zero =>
              obtain rfl : kept = true := by simpa using h
              simp [keep]
          | succ place =>
              have hrest := ih hlength (by simpa using h)
              cases kept <;> simp [keep, hrest]

/-- A change of a kept instruction is seen in what is left. -/
theorem keep_modify {mask : List Bool} {program : List Instruction}
    (hlength : mask.length = program.length) {place : Nat} (h : mask[place]? = some true)
    (change : Instruction → Instruction) :
    keep mask (program.modify place change) =
      (keep mask program).modify (moved 0 mask place) change := by
  induction mask generalizing program place with
  | nil => simp at h
  | cons kept mask ih =>
      cases program with
      | nil => simp at hlength
      | cons instruction program =>
          have hlength : mask.length = program.length := by simpa using hlength
          cases place with
          | zero =>
              obtain rfl : kept = true := by simpa using h
              simp [keep]
          | succ place =>
              have hrest := ih hlength (by simpa using h)
              cases kept <;> simp [keep, hrest]

/-! ## What the pass keeps -/

/-- The two instructions of a pair are a load and a store. -/
theorem isTransfer_of_isPair {relocations : Relocations} {index : Nat}
    {operation₁ operation₂ : Operation} {first second : Instruction}
    (h : isPair relocations index operation₁ operation₂ first second = true)
    (hoperations : (operation₁ = .load ∧ operation₂ = .store) ∨
      (operation₁ = .store ∧ operation₂ = .load)) :
    first.isTransfer = true ∧ second.isTransfer = true := by
  simp only [isPair, Bool.and_eq_true, decide_eq_true_eq] at h
  obtain ⟨⟨⟨hfirst, hsecond⟩, -⟩, -⟩ := h
  rcases hoperations with ⟨rfl, rfl⟩ | ⟨rfl, rfl⟩ <;>
    simp [Instruction.isTransfer, hfirst, hsecond]

/-- There is an answer for every instruction. -/
@[simp] theorem length_survivors (index : Nat) (relocations : Relocations)
    (program : List Instruction) :
    (survivors index relocations program).length = program.length := by
  fun_induction survivors index relocations program with
  | case1 index relocations first second rest h ih => simp [ih]
  | case2 index relocations first second rest h₁ h₂ ih => simp [ih]
  | case3 index relocations first second rest h₁ h₂ ih => simp [ih]
  | case4 => simp

/-- Where everything is kept the program is the same. -/
theorem keep_map_true (program : List Instruction) :
    keep (program.map fun _ => true) program = program := by
  induction program with
  | nil => rfl
  | cons instruction program ih => rw [List.map_cons, keep, ih]

/-- **What is left are the instructions that are kept.** -/
theorem peepholeFrom_program (index : Nat) (relocations : Relocations)
    (program : List Instruction) :
    (peepholeFrom index relocations program).1 =
      keep (survivors index relocations program) program := by
  fun_induction survivors index relocations program with
  | case1 index relocations first second rest h ih =>
      rw [peepholeFrom, if_pos h, ih, keep]
  | case2 index relocations first second rest h₁ h₂ ih =>
      rw [peepholeFrom, if_neg h₁, if_pos h₂, ih, keep, keep]
  | case3 index relocations first second rest h₁ h₂ ih =>
      rw [peepholeFrom, if_neg h₁, if_neg h₂, keep, ← ih]
  | case4 index relocations program hshort =>
      rw [peepholeFrom, keep_map_true]
      exact hshort

/-- **Only loads and stores are dropped.** -/
theorem isTransfer_of_dropped {index : Nat} {relocations : Relocations}
    {program : List Instruction} {place : Nat} {instruction : Instruction}
    (hdropped : (survivors index relocations program)[place]? = some false)
    (hfetch : program[place]? = some instruction) : instruction.isTransfer = true := by
  fun_induction survivors index relocations program generalizing place with
  | case1 index relocations first second rest h ih =>
      have hpair := isTransfer_of_isPair h (.inl ⟨rfl, rfl⟩)
      cases place with
      | zero =>
          obtain rfl : first = instruction := by simpa using hfetch
          exact hpair.1
      | succ place => exact ih hdropped hfetch
  | case2 index relocations first second rest h₁ h₂ ih =>
      have hpair := isTransfer_of_isPair h₂ (.inr ⟨rfl, rfl⟩)
      rcases place with _ | _ | place
      · obtain rfl : first = instruction := by simpa using hfetch
        exact hpair.1
      · obtain rfl : second = instruction := by simpa using hfetch
        exact hpair.2
      · exact ih hdropped hfetch
  | case3 index relocations first second rest h₁ h₂ ih =>
      cases place with
      | zero => simp at hdropped
      | succ place => exact ih hdropped hfetch
  | case4 index relocations program hshort =>
      obtain ⟨_, -, hfalse⟩ := List.mem_map.mp (List.mem_of_getElem? hdropped)
      cases hfalse

/-! ## The tables -/

namespace Relocations

/-- The tables with every index moved. -/
def mapIndices (change : Nat → Nat) (relocations : Relocations) : Relocations where
  labels := relocations.labels.map fun (label, index) => (label, change index)
  references := relocations.references.map fun (index, label) => (change index, label)

/-- Moving indices twice is moving them once. -/
theorem mapIndices_mapIndices (first second : Nat → Nat) (relocations : Relocations) :
    (relocations.mapIndices first).mapIndices second =
      relocations.mapIndices fun index => second (first index) := by
  simp [mapIndices, Function.comp_def]

theorem mapIndices_id (relocations : Relocations) :
    (relocations.mapIndices fun index => index) = relocations := by
  simp [mapIndices]

/-- A label that has moved is found where it has moved. -/
theorem labelIndex?_mapIndices (change : Nat → Nat) (relocations : Relocations)
    (label : String) :
    (relocations.mapIndices change).labelIndex? label =
      (relocations.labelIndex? label).map change := by
  simp only [labelIndex?, mapIndices]
  induction relocations.labels with
  | nil => rfl
  | cons entry rest ih =>
      obtain ⟨name, index⟩ := entry
      rw [List.map_cons, List.lookup_cons, List.lookup_cons]
      cases label == name with
      | true => rfl
      | false => exact ih

/-- No jump waits at a load or a store of a program from the given index on. -/
def WaitsElsewhere (relocations : Relocations) (index : Nat) (program : List Instruction) : Prop :=
  ∀ entry ∈ relocations.references, index ≤ entry.1 → ∀ instruction,
    program[entry.1 - index]? = some instruction → instruction.isTransfer = false

variable {relocations : Relocations} {index offset : Nat} {program : List Instruction}
  {instruction : Instruction}

/-- Taking out a load or a store moves every index behind it. -/
theorem WaitsElsewhere.remove_eq (h : relocations.WaitsElsewhere index program)
    (hfetch : program[offset]? = some instruction) (htransfer : instruction.isTransfer = true) :
    relocations.remove (index + offset) = relocations.mapIndices (shift (index + offset)) := by
  have hfree : relocations.isWaiting (index + offset) = false := by
    refine List.any_eq_false.mpr fun entry hentry hplace => ?_
    have hplace : entry.1 = index + offset := by simpa using hplace
    have hother := h entry hentry (by omega) instruction
      (by rw [hplace, Nat.add_sub_cancel_left, hfetch])
    simp [hother] at htransfer
  rw [remove, keptReferences_of_not_isWaiting _ _ hfree]
  rfl

/-- If no load or store waits, none does after one was taken out. -/
theorem WaitsElsewhere.remove (h : relocations.WaitsElsewhere index program)
    (hfetch : program[offset]? = some instruction) (htransfer : instruction.isTransfer = true) :
    (relocations.remove (index + offset)).WaitsElsewhere index (program.eraseIdx offset) := by
  rw [h.remove_eq hfetch htransfer]
  intro entry hentry hle other hother
  obtain ⟨⟨place, label⟩, hmem, rfl⟩ := List.mem_map.mp hentry
  simp only [shift] at hle hother
  rw [List.getElem?_eraseIdx] at hother
  split at hle
  · next hbehind =>
      have hsub : place - 1 - index + 1 = place - index := by omega
      rw [if_pos hbehind, if_neg (by omega), hsub] at hother
      exact h (place, label) hmem (by simp only; omega) other hother
  · next hbefore =>
      rw [if_neg hbefore] at hother
      split at hother
      · exact h (place, label) hmem hle other hother
      · -- the jump would wait at the instruction that is taken out
        have hplace : place - index = offset := by omega
        have hfree := h (place, label) hmem hle instruction (by simp only [hplace, hfetch])
        simp [hfree] at htransfer

/-- If no load or store waits in a program, none does in its rest. -/
theorem WaitsElsewhere.tail (h : relocations.WaitsElsewhere index (instruction :: program)) :
    relocations.WaitsElsewhere (index + 1) program := by
  intro entry hentry hle other hother
  have hsub : entry.1 - index = entry.1 - (index + 1) + 1 := by omega
  exact h entry hentry (by omega) other (by rw [hsub, List.getElem?_cons_succ, hother])

end Relocations

/-- An index that has moved once moves on. -/
theorem Relocations.mapIndices_moved {relocations removed : Relocations} {index : Nat}
    {change : Nat → Nat} {mask mask' : List Bool}
    (hremoved : removed = relocations.mapIndices change)
    (hmask : ∀ place, moved index mask' place = moved index mask (change place)) :
    removed.mapIndices (moved index mask) = relocations.mapIndices (moved index mask') := by
  rw [hremoved, mapIndices_mapIndices, funext hmask]

/-- **The tables move along with the instructions.** -/
theorem peepholeFrom_tables {index : Nat} {relocations : Relocations}
    {program : List Instruction} (h : relocations.WaitsElsewhere index program) :
    (peepholeFrom index relocations program).2 =
      relocations.mapIndices (moved index (survivors index relocations program)) := by
  -- by the cases of the pass; every instruction that is taken out moves all later indices by one
  fun_induction survivors index relocations program with
  | case1 index relocations first second rest hpair ih =>
      have htransfer := (isTransfer_of_isPair hpair (.inl ⟨rfl, rfl⟩)).1
      have hfetch : (first :: second :: rest)[0]? = some first := rfl
      have hremove : relocations.remove index = relocations.mapIndices (Relocations.shift index) :=
        h.remove_eq hfetch htransfer
      rw [peepholeFrom, if_pos hpair, ih (h.remove hfetch htransfer)]
      exact Relocations.mapIndices_moved hremove (moved_false_cons index _)
  | case2 index relocations first second rest hno hpair ih =>
      have htransfer := isTransfer_of_isPair hpair (.inr ⟨rfl, rfl⟩)
      have hsecond : (first :: second :: rest)[1]? = some second := rfl
      have hfirst : (first :: rest)[0]? = some first := rfl
      have hmiddle : (relocations.remove (index + 1)).WaitsElsewhere index (first :: rest) :=
        h.remove hsecond htransfer.2
      have hremove : (relocations.remove (index + 1)).remove index =
          relocations.mapIndices fun place =>
            Relocations.shift index (Relocations.shift (index + 1) place) := by
        have houter := hmiddle.remove_eq hfirst htransfer.1
        rw [h.remove_eq hsecond htransfer.2] at houter ⊢
        exact houter.trans (Relocations.mapIndices_mapIndices _ _ _)
      rw [peepholeFrom, if_neg hno, if_pos hpair, ih (hmiddle.remove hfirst htransfer.1)]
      exact Relocations.mapIndices_moved hremove (moved_false_false_cons index _)
  | case3 index relocations first second rest hno hno' ih =>
      rw [peepholeFrom, if_neg hno, if_neg hno']
      show (peepholeFrom (index + 1) relocations (second :: rest)).2 = _
      rw [ih h.tail, ← funext (moved_true_cons index _)]
  | case4 index relocations program hshort =>
      rw [peepholeFrom]
      · rw [funext (moved_map_true index program), Relocations.mapIndices_id]
      · exact hshort

end AtomCompiler
