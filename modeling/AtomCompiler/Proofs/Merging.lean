import AtomCompiler.Proofs.WellFormed

/-!
# Tables in step with what is dropped

The pass over neighbouring loads and stores drops some of them and moves every label and
every waiting jump along.  Here this is said of any program and any tables, as long as no
jump waits at a load or a store.

The pass never looks back, so the two instructions that it looks at are neighbours in
the program it began with, whatever it has dropped in front of them, and a label that
stands between them there still stands between them.

* `SideBySide` — a load and a store of one cell with no label in between;
* `merged_of_dropped` — nothing else is dropped;
* `peepholeDropsFrom_eq` — as many instructions are counted as are missing;
* `count_take_lt` — no two of the kept instructions come to the same place;
* `peephole_keeps_in_step` — all of it, for whole programs.
-/

namespace AtomCompiler

variable {index place : Nat} {relocations : Relocations} {program : List Instruction}
  {first second : Instruction} {rest : List Instruction} {operation₁ operation₂ : Operation}
  {mask : List Bool}

/-! ## Pairs -/

/-- Neighbours with the given operations, for the same cell, and with no label before
the second.  The program stands from the given index on. -/
structure SideBySide (index : Nat) (relocations : Relocations) (program : List Instruction)
    (operation₁ operation₂ : Operation) (place : Nat) : Prop where
  pair : ∃ first second, program[place]? = some first ∧ program[place + 1]? = some second ∧
    first.operation = operation₁ ∧ second.operation = operation₂ ∧ first.address = second.address
  unlabelled : ∀ label, (label, index + place + 1) ∉ relocations.labels

/-- An instruction that goes with a pair: a load before a store of its cell, or a store
and a load of its cell, which go together. -/
inductive Merged (index : Nat) (relocations : Relocations) (program : List Instruction)
    (mask : List Bool) : Nat → Prop
  | load {place : Nat} (h : SideBySide index relocations program .load .store place) :
      Merged index relocations program mask place
  | store {place : Nat} (h : SideBySide index relocations program .store .load place)
      (hboth : mask[place + 1]? = some false) : Merged index relocations program mask place
  | reload {place : Nat} (h : SideBySide index relocations program .store .load place)
      (hboth : mask[place]? = some false) : Merged index relocations program mask (place + 1)

/-- A pair that is found here stands side by side, with no label between. -/
theorem sideBySide_of_isPair
    (h : isPair relocations index operation₁ operation₂ first second = true) :
    SideBySide index relocations (first :: second :: rest) operation₁ operation₂ 0 := by
  simp only [isPair, Bool.and_eq_true, decide_eq_true_eq, Bool.not_eq_true'] at h
  obtain ⟨⟨⟨hfirst, hsecond⟩, haddress⟩, htarget⟩ := h
  refine ⟨⟨first, second, rfl, rfl, hfirst, hsecond, haddress⟩, ?_⟩
  intro label hmem
  have hnot := List.any_eq_false.mp htarget (label, index + 0 + 1) hmem
  simp at hnot

/-- A label behind an instruction that is taken out moves by one place. -/
theorem mem_labels_remove {label : String} {later : Nat}
    (h : (label, later + 1) ∈ relocations.labels) (hlater : place ≤ later) :
    (label, later) ∈ (relocations.remove place).labels := by
  refine List.mem_map.mpr ⟨(label, later + 1), h, ?_⟩
  have hshift : Relocations.shift place (later + 1) = later := by
    rw [Relocations.shift, if_pos (Nat.lt_succ_of_le hlater), Nat.add_sub_cancel]
  simp only [hshift]

/-- A pair behind an instruction is one of the program with this instruction, wherever
the instruction takes the labels. -/
theorem SideBySide.cons {later : Nat} {tables : Relocations}
    (h : SideBySide later tables program operation₁ operation₂ place)
    (hlabels : ∀ label, (label, index + place + 2) ∈ relocations.labels →
      (label, later + place + 1) ∈ tables.labels) :
    SideBySide index relocations (first :: program) operation₁ operation₂ (place + 1) := by
  refine ⟨?_, ?_⟩
  · obtain ⟨before, after, hbefore, hafter, hpair⟩ := h.pair
    exact ⟨before, after, hbefore, hafter, hpair⟩
  · intro label hmem
    exact h.unlabelled label (hlabels label hmem)

/-- A pair that was merged further on was merged in the longer program, if labels have moved
along. -/
theorem Merged.cons {later : Nat} {tables : Relocations} {kept : Bool}
    (h : Merged later tables program mask place)
    (hlabels : ∀ label place, (label, index + place + 2) ∈ relocations.labels →
      (label, later + place + 1) ∈ tables.labels) :
    Merged index relocations (first :: program) (kept :: mask) (place + 1) := by
  cases h with
  | load h => exact .load (h.cons fun label => hlabels label _)
  | store h hboth => exact .store (h.cons fun label => hlabels label _) hboth
  | reload h hboth => exact .reload (h.cons fun label => hlabels label _) hboth

/-- **Only pairs with no label in between are merged.**  The induction follows the pass;
what it has dropped lies in front of the program that is left, so that an index of the
tables moves along with the instruction it belongs to. -/
theorem merged_of_dropped
    (h : (survivors index relocations program)[place]? = some false) :
    Merged index relocations program (survivors index relocations program) place := by
  -- by the cases of the pass; a pair that is found further on has moved with the tables
  fun_induction survivors index relocations program generalizing place with
  | case1 index relocations first second rest hpair ih =>
      cases place with
      | zero => exact .load (sideBySide_of_isPair hpair)
      | succ place =>
          refine (ih h).cons ?_
          intro label place hmem
          exact mem_labels_remove hmem (by omega)
  | case2 index relocations first second rest hno hpair ih =>
      have hside : SideBySide index relocations (first :: second :: rest) .store .load 0 :=
        sideBySide_of_isPair hpair
      rcases place with _ | _ | place
      · exact .store hside rfl
      · exact .reload hside rfl
      · have hrest := ih h
        have hsecond : Merged index (relocations.remove (index + 1)) (second :: rest)
            (false :: survivors index ((relocations.remove (index + 1)).remove index) rest)
            (place + 1) := by
          refine hrest.cons ?_
          intro label place hmem
          exact mem_labels_remove hmem (by omega)
        refine hsecond.cons ?_
        intro label place hmem
        exact mem_labels_remove hmem (by omega)
  | case3 index relocations first second rest hno hno' ih =>
      cases place with
      | zero => cases h
      | succ place =>
          refine (ih h).cons ?_
          intro label place hmem
          have hsum : index + 1 + place + 1 = index + place + 2 := by omega
          rwa [hsum]
  | case4 index relocations program hshort =>
      obtain ⟨_, -, hfalse⟩ := List.mem_map.mp (List.mem_of_getElem? h)
      cases hfalse

/-! ## Counts -/

/-- **The pass counts what it drops.** -/
theorem peepholeDropsFrom_eq (index : Nat) (relocations : Relocations)
    (program : List Instruction) :
    peepholeDropsFrom index relocations program =
      (survivors index relocations program).count false := by
  fun_induction survivors index relocations program with
  | case1 index relocations first second rest hpair ih =>
      rw [peepholeDropsFrom, if_pos hpair, ih, List.count_cons_self]
  | case2 index relocations first second rest hno hpair ih =>
      rw [peepholeDropsFrom, if_neg hno, if_pos hpair, ih, List.count_cons_self,
        List.count_cons_self]
  | case3 index relocations first second rest hno hno' ih =>
      rw [peepholeDropsFrom, if_neg hno, if_neg hno', ih]
      simp
  | case4 index relocations program hshort =>
      have hnone : (program.map fun _ => true).count false = 0 := by
        simp [List.count_eq_zero]
      rw [peepholeDropsFrom, hnone]
      exact hshort

/-- As many instructions are kept as the mask says. -/
theorem length_keep (h : mask.length = program.length) :
    (keep mask program).length = mask.count true := by
  induction mask generalizing program with
  | nil => simp [keep]
  | cons kept mask ih =>
      cases program with
      | nil => simp at h
      | cons instruction program =>
          have hrest := ih (Nat.succ.inj h)
          cases kept with
          | true => rw [keep, List.length_cons, hrest, List.count_cons_self]
          | false => simp [keep, hrest]

/-- **A kept instruction comes before all that are kept behind it.** -/
theorem count_take_lt {later : Nat} (h : mask[place]? = some true) (hlater : place < later) :
    (mask.take place).count true < (mask.take later).count true := by
  have hnext : (mask.take (place + 1)).count true = (mask.take place).count true + 1 := by
    rw [List.take_add_one, h, List.count_append]
    rfl
  have hle : (mask.take (place + 1)).count true ≤ (mask.take later).count true :=
    (List.take_sublist_take_left hlater).count_le true
  omega

/-! ## Whole programs -/

/-- **What becomes of a program and its tables,** in terms of which instructions are kept:
what is left of the program, the tables that belong to it, and the number of instructions
that were counted as dropped. -/
structure KeepsInStep (program : List Instruction) (relocations : Relocations)
    (mask : List Bool) (left : List Instruction) (tables : Relocations) (drops : Nat) : Prop where
  /-- Every instruction is kept or dropped, and what is kept is left, in its order. -/
  left_eq : mask.length = program.length ∧ left = keep mask program ∧ left.Sublist program
  /-- Only loads and stores are dropped. -/
  transfers : ∀ (place : Nat) (instruction : Instruction), mask[place]? = some false →
    program[place]? = some instruction → instruction.isTransfer = true
  /-- As many are missing as were counted. -/
  drops_eq : drops = mask.count false ∧ left.length + drops = program.length
  /-- A label stands behind as many instructions as were kept of those before it. -/
  labels_eq : tables.labels = relocations.labels.map fun (label, index) =>
    (label, (mask.take index).count true)
  /-- So does a jump, which waits for the same label. -/
  references_eq : tables.references = relocations.references.map fun (index, label) =>
    ((mask.take index).count true, label)
  /-- A jump that waits is kept, and found where it waits now. -/
  follows : ∀ entry ∈ relocations.references, mask[entry.1]? = some true ∧
    left[(mask.take entry.1).count true]? = program[entry.1]?
  /-- No two jumps come to wait at the same place. -/
  apart : ∀ entry ∈ relocations.references, ∀ other ∈ relocations.references,
    entry.1 < other.1 → (mask.take entry.1).count true < (mask.take other.1).count true
  /-- Nothing is dropped but pairs with no label before the second instruction. -/
  merged : ∀ place, mask[place]? = some false → Merged 0 relocations program mask place

/-- A jump that waits at another instruction than a load or a store is kept. -/
theorem kept_of_waits {entry : Nat × String}
    (h : program[entry.1]?.map Instruction.isTransfer = some false) :
    (survivors index relocations program)[entry.1]? = some true := by
  obtain ⟨instruction, hfetch, hother⟩ := Option.map_eq_some_iff.mp h
  have hlt : entry.1 < (survivors index relocations program).length := by
    rw [length_survivors]
    exact (List.getElem?_eq_some_iff.mp hfetch).1
  rw [List.getElem?_eq_getElem hlt, Option.some.injEq]
  by_contra hdropped
  have htransfer := isTransfer_of_dropped
    (List.getElem?_eq_some_iff.mpr ⟨hlt, Bool.eq_false_iff.mpr hdropped⟩) hfetch
  rw [hother] at htransfer
  cases htransfer

/-- **Labels and waiting jumps stay in step with what is dropped,** for every program and
all tables whose labels stand in the program or at its end and whose jumps wait at
instructions other than loads and stores. -/
theorem peephole_keeps_in_step {program : List Instruction} {relocations : Relocations}
    (hlabels : ∀ entry ∈ relocations.labels, entry.2 ≤ program.length)
    (hreferences : ∀ entry ∈ relocations.references,
      program[entry.1]?.map Instruction.isTransfer = some false) :
    ∃ mask, KeepsInStep program relocations mask (peephole program relocations).1
      (peephole program relocations).2 (peepholeDrops program relocations) := by
  have hlength := length_survivors 0 relocations program
  have hprogram : (peephole program relocations).1 =
      keep (survivors 0 relocations program) program := peepholeFrom_program 0 relocations program
  -- no reference waits at a load or a store, so no dropped instruction takes one with it
  have hwaits : relocations.WaitsElsewhere 0 program := by
    intro entry hentry _ instruction hfetch
    obtain ⟨other, hother, htransfer⟩ := Option.map_eq_some_iff.mp (hreferences entry hentry)
    rw [Nat.sub_zero, hother] at hfetch
    rwa [← Option.some.inj hfetch]
  have htables : (peephole program relocations).2 =
      relocations.mapIndices (moved 0 (survivors 0 relocations program)) :=
    peepholeFrom_tables hwaits
  have hkept : ∀ entry ∈ relocations.references,
      (survivors 0 relocations program)[entry.1]? = some true :=
    fun entry hentry => kept_of_waits (hreferences entry hentry)
  have hdrops : peepholeDrops program relocations = (survivors 0 relocations program).count false :=
    peepholeDropsFrom_eq 0 relocations program
  refine ⟨survivors 0 relocations program, ?_⟩
  constructor
  case left_eq => exact ⟨hlength, hprogram, peepholeFrom_sublist 0 relocations program⟩
  case transfers =>
    intro place instruction hdropped hfetch
    exact isTransfer_of_dropped hdropped hfetch
  case drops_eq =>
    refine ⟨hdrops, ?_⟩
    have hcount := (survivors 0 relocations program).count_true_add_count_false
    rw [hprogram, length_keep hlength, hdrops, hcount, hlength]
  case labels_eq =>
    rw [htables]
    refine List.map_congr_left ?_
    intro entry hentry
    have hle : entry.2 ≤ (survivors 0 relocations program).length :=
      hlength ▸ hlabels entry hentry
    simp only [moved_eq_count hle]
  case references_eq =>
    rw [htables]
    refine List.map_congr_left ?_
    intro entry hentry
    have hlt := (List.getElem?_eq_some_iff.mp (hkept entry hentry)).1
    simp only [moved_eq_count (Nat.le_of_lt hlt)]
  case follows =>
    intro entry hentry
    obtain ⟨htrue, hplace⟩ := keptAt_moved (hkept entry hentry)
    refine ⟨htrue, ?_⟩
    rw [hprogram, ← hplace, getElem?_keep hlength htrue]
  case apart =>
    intro entry hentry other _ hlt
    exact count_take_lt (hkept entry hentry) hlt
  case merged =>
    intro place hdropped
    exact merged_of_dropped hdropped

/-- Loads and stores of one cell in a row, with a comparison and a jump behind them. -/
def cascade : List Instruction :=
  [{ operation := .load, address := 512 }, { operation := .store, address := 512 },
    { operation := .load, address := 512 }, { operation := .store, address := 512 },
    { operation := .load, address := 512 }, .compare .less 520, .jump, { operation := .halt }]

/-- Labels at two of the pairs and at the end, and a jump that waits for one of them. -/
def cascadeTables : Relocations :=
  ⟨[("again", 2), ("end", 7), ("top", 1)], [(6, "again")]⟩

/-- The two pairs at labels stay.  Behind them a load goes and then, as its store comes to
stand before the next load, both of these; the label in front of them moves to what is
left there. -/
theorem peephole_keeps_in_step_cascade :
    (∀ entry ∈ cascadeTables.labels, entry.2 ≤ cascade.length) ∧
      (∀ entry ∈ cascadeTables.references,
        cascade[entry.1]?.map Instruction.isTransfer = some false) ∧
      ∃ mask, KeepsInStep cascade cascadeTables mask
        [{ operation := .load, address := 512 }, { operation := .store, address := 512 },
          .compare .less 520, .jump, { operation := .halt }]
        ⟨[("again", 2), ("end", 4), ("top", 1)], [(3, "again")]⟩ 3 := by
  have hlabels : ∀ entry ∈ cascadeTables.labels, entry.2 ≤ cascade.length := by decide
  have hreferences : ∀ entry ∈ cascadeTables.references,
      cascade[entry.1]?.map Instruction.isTransfer = some false := by
    decide
  have hleft : peephole cascade cascadeTables =
      ([{ operation := .load, address := 512 }, { operation := .store, address := 512 },
          .compare .less 520, .jump, { operation := .halt }],
        ⟨[("again", 2), ("end", 4), ("top", 1)], [(3, "again")]⟩) := by
    decide +kernel
  have hdrops : peepholeDrops cascade cascadeTables = 3 := by decide +kernel
  have hstep := peephole_keeps_in_step hlabels hreferences
  rw [hleft, hdrops] at hstep
  exact ⟨hlabels, hreferences, hstep⟩

end AtomCompiler
