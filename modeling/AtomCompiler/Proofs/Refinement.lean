import AtomCompiler.Execution.Machine
import AtomCompiler.Proofs.Emission

/-!
# Emitted programs run their atoms

The machine runs the code of one atom after another.  Between two atoms the cell
of every text that has one holds the value of that text, and the machine stands
at the code of the next atom.

* `Matches` — how a state of the machine stands for a state of the atoms;
* `Matches.step` — the code of an atom does what the atom does;
* `Matches.reaches`, `Matches.terminates` — so does the whole program, from atoms
  to machine and back;
* `emit_refines` — an emitted program halts exactly when its atoms end, with the
  same values in its cells.
-/

namespace AtomCompiler

/-- Wherever a run comes to a test, the opposite comparison holds exactly when
the comparison does not. -/
def DecisiveTests (convention : Convention) (atoms : List Atom) (start : Store) : Prop :=
  ∀ place store left right comparison target opposite,
    Reaches (AtomState.step? convention atoms) ⟨0, start⟩ ⟨place, store⟩ →
    atoms[place]? = some (.test left right comparison target) →
    comparison.opposite? = some opposite →
    opposite.holds (convention.value store left) (convention.value store right) =
      !comparison.holds (convention.value store left) (convention.value store right)

/-! ## Cells and values -/

/-- Two slots with one address are the same. -/
theorem cellAddress_injective {slot other : Nat} (h : cellAddress slot = cellAddress other) :
    slot = other := by
  simp only [cellAddress, programBytes, cellBytes] at h
  omega

/-- The cells of the machine hold the values of the texts. -/
def HoldsValues (convention : Convention) (memory : Memory) (cells : Nat → Float)
    (store : Store) : Prop :=
  ∀ text slot, memory.slot? text = some slot →
    cells (cellAddress slot) = convention.value store text

variable {convention : Convention} {memory : Memory} {atoms : List Atom}

/-- A cell that is loaded with a number is the cell of one text. -/
theorem Memory.Stocked.slot_unique (h : memory.Stocked) {text other : String} {slot : Nat}
    (htext : memory.slot? text = some slot) (hother : memory.slot? other = some slot) :
    text = other := by
  obtain ⟨bits, hcell, -⟩ := h text slot htext
  obtain ⟨bits', hcell', -⟩ := h other slot hother
  rw [hcell] at hcell'
  injection hcell' with hcell'
  injection hcell'

/-- When memory is loaded the cells hold the values of a store of zeros. -/
theorem Memory.Stocked.holdsValues_initial (h : memory.Stocked) :
    HoldsValues convention memory memory.initialCells Store.zero := by
  intro text slot hslot
  obtain ⟨bits, hcell, hinitial⟩ := h text slot hslot
  have hindex : (cellAddress slot - programBytes) / cellBytes = slot := by
    simp only [cellAddress, cellBytes]
    omega
  rw [Memory.initialCells, hindex, hcell]
  by_cases hliteral : isLiteral text
  · rw [IsInitial, if_pos hliteral] at hinitial
    simp [Convention.value, hliteral, Convention.literal, Numeral.value?, hinitial]
  · rw [IsInitial, if_neg hliteral] at hinitial
    have hzero : Float.ofBits 0 = 0 := by decide +kernel
    simp [Convention.value, hliteral, hinitial, hzero, Store.zero]

/-- Storing a variable's new value keeps the cells right. -/
theorem HoldsValues.set (hstocked : memory.Stocked) {cells : Nat → Float} {store : Store}
    (h : HoldsValues convention memory cells store) {name : String} {slot : Nat}
    (hslot : memory.slot? name = some slot) (hname : isLiteral name = false) (value : Float) :
    HoldsValues convention memory
      (fun other => if other = cellAddress slot then value else cells other)
      (store.set name value) := by
  intro text other hother
  by_cases heq : other = slot
  · subst heq
    obtain rfl := hstocked.slot_unique hslot hother
    simp [Convention.value, hname]
  · have hne : cellAddress other ≠ cellAddress slot := fun h => heq (cellAddress_injective h)
    have htext : text ≠ name := by
      rintro rfl
      rw [hslot] at hother
      exact heq (Option.some.inj hother).symm
    simp only [hne, if_false]
    rw [h text other hother, Convention.value, Convention.value, Store.set_of_ne htext]

/-- The cell of a text that has one holds its value. -/
theorem HoldsValues.cellOf {cells : Nat → Float} {store : Store}
    (h : HoldsValues convention memory cells store) {text : String}
    (htext : (memory.slot? text).isSome) :
    cells (memory.cellOf text) = convention.value store text := by
  obtain ⟨slot, hslot⟩ := Option.isSome_iff_exists.mp htext
  rw [Memory.cellOf_eq hslot]
  exact h text slot hslot

/-- The literal zero is zero under every convention. -/
theorem Convention.value_zero (convention : Convention) (store : Store) :
    convention.value store "0" = 0 := by
  have hzero : Numeral.value? "0" = some 0 := by decide +kernel
  have hliteral : isLiteral "0" = true := by decide
  rw [value, if_pos hliteral, literal, hzero]
  rfl

/-! ## The code of one atom -/

/-- An atom more has its words more. -/
theorem wordsOf_take_succ {place : Nat} {atom : Atom} (h : atoms[place]? = some atom) :
    wordsOf (atoms.take (place + 1)) = wordsOf (atoms.take place) + atom.words := by
  rw [List.take_add_one, h]
  simp

/-- The code of a list is the code before an atom, its own code, and the code behind it. -/
theorem flatMap_split {place : Nat} {atom : Atom} (h : atoms[place]? = some atom)
    (code : Atom → List Instruction) :
    atoms.flatMap code =
      (atoms.take place).flatMap code ++ (code atom ++ (atoms.drop (place + 1)).flatMap code) := by
  obtain ⟨hlt, rfl⟩ := List.getElem?_eq_some_iff.mp h
  rw [← List.flatMap_cons, ← List.flatMap_append]
  simp

namespace Emitted

variable {place : Nat} {atom : Atom}

/-- The code of an atom stands behind the code of all atoms before it. -/
theorem fetch (h : Emitted atoms memory) (hatom : atoms[place]? = some atom) {index : Nat}
    {instruction : Instruction}
    (hindex : (atom.code memory.cellOf (goalIn atoms))[index]? = some instruction) :
    memory.program[wordsOf (atoms.take place) + index]? = some instruction := by
  have hinside : index < (atom.code memory.cellOf (goalIn atoms)).length :=
    (List.getElem?_eq_some_iff.mp hindex).1
  rw [h.program, flatMap_split hatom, List.append_assoc, List.append_assoc,
    List.getElem?_append_right (by rw [length_flatMap_code]; omega), length_flatMap_code,
    Nat.add_sub_cancel_left, List.getElem?_append_left hinside, hindex]

/-- An emitted program has one word more than its atoms, the halt at its end. -/
theorem length_program (h : Emitted atoms memory) : memory.program.length = wordsOf atoms + 1 := by
  rw [h.program, List.length_append, length_flatMap_code]
  rfl

/-- Behind the code of all atoms the machine halts. -/
theorem fetch_halt (h : Emitted atoms memory) :
    memory.program[wordsOf atoms]? = some { operation := .halt } := by
  rw [h.program, List.getElem?_append_right (Nat.le_of_eq (length_flatMap_code _ _ _)),
    length_flatMap_code, Nat.sub_self]
  rfl

/-- Every label stands for an instruction of the program. -/
theorem goalIn_lt (h : Emitted atoms memory) (label : String) :
    goalIn atoms label < programBytes / wordBytes := by
  have hle := h.length_le
  have hgoal : goalIn atoms label ≤ wordsOf atoms := wordsOf_take_le _ _
  rw [h.length_program] at hle
  omega

/-- The address of a label's instruction is that of its index. -/
theorem addressOf_goalIn (h : Emitted atoms memory) (label : String) :
    Relocations.addressOf (goalIn atoms label) / wordBytes = goalIn atoms label := by
  have hle := h.length_le
  have hgoal := wordsOf_take_le atoms ((labelPlace? atoms label).getD 0)
  rw [h.length_program] at hle
  have hlt : goalIn atoms label < 0x40000000 := by
    simp only [goalIn, programBytes, wordBytes] at hle ⊢
    omega
  rw [Relocations.addressOf_of_lt hlt]
  simp [wordBytes]

end Emitted

/-! ## Steps of the machine -/

section Machine

variable (convention) {program : List Instruction} {machine : MachineState} {a b c : Nat}

/-- Two cells are combined into a third. -/
theorem stepN_combine {operation : Arithmetic}
    (h₀ : program[machine.place]? = some { operation := .load, address := a })
    (h₁ : program[machine.place + 1]? = some { operation := .arithmetic operation, address := b })
    (h₂ : program[machine.place + 2]? = some { operation := .store, address := c }) :
    stepN (MachineState.step? convention program) 3 machine =
      some { place := machine.place + 3
             accumulator := convention.result operation (machine.cells a) (machine.cells b)
             flag := machine.flag
             cells := fun other =>
              if other = c then convention.result operation (machine.cells a) (machine.cells b)
              else machine.cells other } := by
  simp [MachineState.step?, h₀, h₁, h₂, MachineState.runInstruction?, MachineState.advance,
    MachineState.put]

/-- A cell is copied into another. -/
theorem stepN_copy (h₀ : program[machine.place]? = some { operation := .load, address := a })
    (h₁ : program[machine.place + 1]? = some { operation := .store, address := b }) :
    stepN (MachineState.step? convention program) 2 machine =
      some { place := machine.place + 2
             accumulator := machine.cells a
             flag := machine.flag
             cells := fun other =>
              if other = b then machine.cells a else machine.cells other } := by
  simp [MachineState.step?, h₀, h₁, MachineState.runInstruction?, MachineState.advance,
    MachineState.put]

/-- A cell is cleared. -/
theorem stepN_clear (h₀ : program[machine.place]? = some { operation := .clear })
    (h₁ : program[machine.place + 1]? = some { operation := .store, address := b }) :
    stepN (MachineState.step? convention program) 2 machine =
      some { place := machine.place + 2
             accumulator := 0
             flag := machine.flag
             cells := fun other => if other = b then 0 else machine.cells other } := by
  simp [MachineState.step?, h₀, h₁, MachineState.runInstruction?, MachineState.advance,
    MachineState.put]

/-- A comparison with a cell, and a jump if it holds. -/
theorem stepN_jumpIf {comparison : Comparison}
    (h₀ : program[machine.place]? = some (.compare comparison b))
    (h₁ : program[machine.place + 1]? = some { Instruction.jump with address := c }) :
    stepN (MachineState.step? convention program) 2 machine =
      some { machine with
             place :=
              if comparison.holds machine.accumulator (machine.cells b) then c / wordBytes
              else machine.place + 2
             flag := comparison.holds machine.accumulator (machine.cells b) } := by
  have hcode : Comparison.ofCode? comparison.code = some comparison :=
    Comparison.ofCode?_eq_some_iff.mpr rfl
  cases hholds : comparison.holds machine.accumulator (machine.cells b) <;>
    simp [MachineState.step?, h₀, h₁, MachineState.runInstruction?, MachineState.advance,
      MachineState.compare, Instruction.compare, Instruction.jump, hcode, hholds]

/-- Two cells are compared, and a jump is taken if the comparison holds. -/
theorem stepN_test {comparison : Comparison}
    (h₀ : program[machine.place]? = some { operation := .load, address := a })
    (h₁ : program[machine.place + 1]? = some (.compare comparison b))
    (h₂ : program[machine.place + 2]? = some { Instruction.jump with address := c }) :
    stepN (MachineState.step? convention program) 3 machine =
      some { machine with
             place :=
              if comparison.holds (machine.cells a) (machine.cells b) then c / wordBytes
              else machine.place + 3
             accumulator := machine.cells a
             flag := comparison.holds (machine.cells a) (machine.cells b) } := by
  have hload : MachineState.step? convention program machine =
      some { machine.advance with accumulator := machine.cells a } := by
    simp [MachineState.step?, h₀, MachineState.runInstruction?]
  rw [stepN_succ, hload]
  exact stepN_jumpIf convention h₁ h₂

end Machine

/-! ## The machine follows the atoms -/

/-- The machine stands at the code of the atom that is next, and its cells hold
the values of the store. -/
structure Matches (convention : Convention) (atoms : List Atom) (memory : Memory)
    (state : AtomState) (machine : MachineState) : Prop where
  place : machine.place = wordsOf (atoms.take state.place)
  cells : HoldsValues convention memory machine.cells state.store

/-- From a state of the machine some steps lead to one that stands for the given
state of the atoms.  No step at all is taken only for an atom that control falls
through. -/
def Follows (convention : Convention) (atoms : List Atom) (memory : Memory)
    (machine : MachineState) (place : Nat) (next : AtomState) : Prop :=
  ∃ n after, stepN (MachineState.step? convention memory.program) n machine = some after ∧
    Matches convention atoms memory next after ∧ (n = 0 → next.place = place + 1)

section Simulation

variable {state next : AtomState} {machine : MachineState} {atom : Atom}

/-- A value that the machine has put into the cell of a variable. -/
theorem follows_assigned (hemitted : Emitted atoms memory) (hstocked : memory.Stocked)
    (hmatches : Matches convention atoms memory state machine)
    (hatom : atoms[state.place]? = some atom) {name : String} (hname : name ∈ atom.texts)
    (hliteral : isLiteral name = false) {value : Float} {flag : Bool} {accumulator : Float}
    (hpos : atom.words ≠ 0)
    (hrun : stepN (MachineState.step? convention memory.program) atom.words machine =
      some ⟨machine.place + atom.words, accumulator, flag,
        fun other => if other = memory.cellOf name then value else machine.cells other⟩) :
    Follows convention atoms memory machine state.place
      (state.next (state.store.set name value)) := by
  have hslotted := hemitted.slotted atom (List.mem_of_getElem? hatom) name hname
  obtain ⟨slot, hslot⟩ := Option.isSome_iff_exists.mp hslotted
  rw [Memory.cellOf_eq hslot] at hrun
  refine ⟨_, _, hrun, ⟨?_, ?_⟩, fun hzero => absurd hzero hpos⟩
  · show machine.place + atom.words = wordsOf (atoms.take (state.place + 1))
    rw [hmatches.place, wordsOf_take_succ hatom]
  · exact hmatches.cells.set hstocked hslot hliteral value

/-- A jump to a label. -/
theorem follows_goto (hemitted : Emitted atoms memory)
    (hmatches : Matches convention atoms memory state machine) {target : String} {n : Nat}
    (hgoto : state.goto? atoms target = some next) {after : MachineState} (hpos : n ≠ 0)
    (hrun : stepN (MachineState.step? convention memory.program) n machine = some after)
    (hplace : after.place = Relocations.addressOf (goalIn atoms target) / wordBytes)
    (hcells : after.cells = machine.cells) :
    Follows convention atoms memory machine state.place next := by
  obtain ⟨goal, hgoal, rfl⟩ := Option.map_eq_some_iff.mp hgoto
  refine ⟨n, after, hrun, ⟨?_, ?_⟩, fun hzero => absurd hzero hpos⟩
  · rw [hplace, hemitted.addressOf_goalIn, goalIn, hgoal]
    rfl
  · rw [hcells]
    exact hmatches.cells

/-- The code of a test: it jumps when the opposite comparison holds. -/
theorem follows_test (hemitted : Emitted atoms memory)
    (hmatches : Matches convention atoms memory state machine) {left right : String}
    {comparison opposite : Comparison} {target : String}
    (hatom : atoms[state.place]? = some (.test left right comparison target))
    (hopposite : comparison.opposite? = some opposite)
    (hdecisive :
      opposite.holds (convention.value state.store left) (convention.value state.store right) =
        !comparison.holds (convention.value state.store left)
          (convention.value state.store right))
    (hrun : state.runAtom? convention atoms (.test left right comparison target) = some next) :
    Follows convention atoms memory machine state.place next := by
  have hcode : (Atom.test left right comparison target).code memory.cellOf (goalIn atoms) =
      [{ operation := .load, address := memory.cellOf left },
        .compare opposite (memory.cellOf right),
        { Instruction.jump with address := Relocations.addressOf (goalIn atoms target) }] := by
    simp [Atom.code, hopposite]
  have hfetch : ∀ index instruction,
      ((Atom.test left right comparison target).code memory.cellOf (goalIn atoms))[index]? =
        some instruction → memory.program[machine.place + index]? = some instruction := by
    intro index instruction hindex
    rw [hmatches.place]
    exact hemitted.fetch hatom hindex
  rw [hcode] at hfetch
  have hvalue : ∀ text ∈ (Atom.test left right comparison target).texts,
      machine.cells (memory.cellOf text) = convention.value state.store text := fun text htext =>
    hmatches.cells.cellOf (hemitted.slotted _ (List.mem_of_getElem? hatom) text htext)
  have hsteps := stepN_test convention (hfetch 0 _ rfl) (hfetch 1 _ rfl) (hfetch 2 _ rfl)
  rw [hvalue left (by simp [Atom.texts]), hvalue right (by simp [Atom.texts]), hdecisive] at hsteps
  -- the machine jumps on the opposite comparison, so exactly where the test fails
  simp only [AtomState.runAtom?] at hrun
  split at hrun
  · next hholds =>
      obtain rfl := Option.some.inj hrun
      rw [hholds] at hsteps
      refine ⟨3, _, hsteps, ⟨?_, hmatches.cells⟩, fun hzero => by cases hzero⟩
      show machine.place + 3 = wordsOf (atoms.take (state.place + 1))
      rw [hmatches.place, wordsOf_take_succ hatom]
      simp [Atom.words, hopposite]
  · next hfails =>
      rw [Bool.not_eq_true] at hfails
      rw [hfails] at hsteps
      exact follows_goto hemitted hmatches hrun (by decide) hsteps rfl rfl

/-- An atom that needs no code. -/
theorem follows_nothing (hmatches : Matches convention atoms memory state machine)
    (hatom : atoms[state.place]? = some atom) (hwords : atom.words = 0)
    (hrun : next = state.next state.store) :
    Follows convention atoms memory machine state.place next := by
  subst hrun
  refine ⟨0, machine, rfl, ⟨?_, hmatches.cells⟩, fun _ => rfl⟩
  show machine.place = wordsOf (atoms.take (state.place + 1))
  rw [hmatches.place, wordsOf_take_succ hatom, hwords]
  rfl

/-- **The code of an atom does what the atom does.** -/
theorem Matches.step (hemitted : Emitted atoms memory)
    (hassigned : ∀ name ∈ assignedOf atoms, isLiteral name = false)
    (hnegate : convention.negate = fun number => 0 - number)
    (hmatches : Matches convention atoms memory state machine)
    (hdecisive : ∀ left right comparison target opposite,
      atoms[state.place]? = some (.test left right comparison target) →
      comparison.opposite? = some opposite →
      opposite.holds (convention.value state.store left) (convention.value state.store right) =
        !comparison.holds (convention.value state.store left)
          (convention.value state.store right))
    (hstep : AtomState.step? convention atoms state = some next) :
    Follows convention atoms memory machine state.place next := by
  obtain ⟨atom, hatom, hrun⟩ := Option.bind_eq_some_iff.mp hstep
  -- the machine stands at the code of the atom, and the cells of its texts hold their values
  have hfetch : ∀ index instruction,
      (atom.code memory.cellOf (goalIn atoms))[index]? = some instruction →
        memory.program[machine.place + index]? = some instruction := by
    intro index instruction hindex
    rw [hmatches.place]
    exact hemitted.fetch hatom hindex
  have hvalue : ∀ text ∈ atom.texts,
      machine.cells (memory.cellOf text) = convention.value state.store text := fun text htext =>
    hmatches.cells.cellOf (hemitted.slotted atom (List.mem_of_getElem? hatom) text htext)
  have hvariable : ∀ name, atom.assigned? = some name → isLiteral name = false := fun name hname =>
    hassigned name (List.mem_filterMap.mpr ⟨atom, List.mem_of_getElem? hatom, hname⟩)
  have hstocked := hemitted.stocked hassigned
  cases atom with
  | arithmetic operation left right result =>
      obtain rfl := Option.some.inj hrun
      have hcode := stepN_combine convention (hfetch 0 _ rfl) (hfetch 1 _ rfl) (hfetch 2 _ rfl)
      rw [hvalue left (by simp [Atom.texts]), hvalue right (by simp [Atom.texts])] at hcode
      exact follows_assigned hemitted hstocked hmatches hatom (by simp [Atom.texts])
        (hvariable result rfl) (by simp [Atom.words]) hcode
  | negate source result =>
      obtain rfl := Option.some.inj hrun
      have hcode := stepN_combine convention (hfetch 0 _ rfl) (hfetch 1 _ rfl) (hfetch 2 _ rfl)
      rw [hvalue "0" (by simp [Atom.texts]), hvalue source (by simp [Atom.texts]),
        Convention.value_zero] at hcode
      rw [hnegate]
      exact follows_assigned hemitted hstocked hmatches hatom (by simp [Atom.texts])
        (hvariable result rfl) (by simp [Atom.words]) hcode
  | move source result =>
      obtain rfl := Option.some.inj hrun
      have hresult : result ∈ (Atom.move source result).texts := by
        by_cases hzero : source = "0" <;> simp [Atom.texts, hzero]
      by_cases hzero : source = "0"
      · have hclear := hfetch 0 { operation := .clear } (by simp [Atom.code, hzero])
        have hcode := stepN_clear convention hclear (hfetch 1 _ rfl)
        rw [hzero, Convention.value_zero]
        exact follows_assigned hemitted hstocked hmatches hatom hresult (hvariable result rfl)
          (by simp [Atom.words]) hcode
      · have hload := hfetch 0 { operation := .load, address := memory.cellOf source }
          (by simp [Atom.code, hzero])
        have hcode := stepN_copy convention hload (hfetch 1 _ rfl)
        rw [hvalue source (by simp [Atom.texts, hzero])] at hcode
        exact follows_assigned hemitted hstocked hmatches hatom hresult (hvariable result rfl)
          (by simp [Atom.words]) hcode
  | test left right comparison target =>
      cases hopposite : comparison.opposite? with
      | some opposite =>
          exact follows_test hemitted hmatches hatom hopposite
            (hdecisive left right comparison target opposite hatom hopposite) hrun
      | none =>
          -- a test that always holds has no code, and the machine does not move
          have halways : comparison = .always := by
            cases comparison <;> simp [Comparison.opposite?] at hopposite ⊢
          refine follows_nothing hmatches hatom (by simp [Atom.words, hopposite]) ?_
          simp only [AtomState.runAtom?, halways, Comparison.holds, if_true] at hrun
          exact (Option.some.inj hrun).symm
  | jump target =>
      have hsteps := stepN_jumpIf convention (hfetch 0 _ rfl) (hfetch 1 _ rfl)
      exact follows_goto hemitted hmatches hrun (by decide) hsteps rfl rfl
  | label name => exact follows_nothing hmatches hatom rfl (Option.some.inj hrun).symm

end Simulation

/-! ## Runs -/

/-- The jump of an atom waits among the jumps of the list. -/
theorem mem_referencesFrom {atom : Atom} (hmem : atom ∈ atoms) {target : String}
    (h : ∀ index, ∃ place, atom.reference? index = some (place, target)) (index : Nat) :
    ∃ entry ∈ referencesFrom index atoms, entry.2 = target := by
  induction atoms generalizing index with
  | nil => cases hmem
  | cons first rest ih =>
      rw [referencesFrom]
      rcases List.mem_cons.mp hmem with rfl | hmem
      · obtain ⟨place, hplace⟩ := h index
        exact ⟨(place, target), by simp [hplace], rfl⟩
      · obtain ⟨entry, hentry, htarget⟩ := ih hmem (index + first.words)
        exact ⟨entry, List.mem_append_right _ hentry, htarget⟩

/-- The atoms of an emitted program are stuck nowhere but at their end. -/
theorem Emitted.step?_isSome (hemitted : Emitted atoms memory) {state : AtomState}
    (hplace : state.place < atoms.length) : (AtomState.step? convention atoms state).isSome := by
  have hatom : atoms[state.place]? = some atoms[state.place] := List.getElem?_eq_getElem hplace
  have hmem : atoms[state.place] ∈ atoms := List.getElem_mem hplace
  generalize atoms[state.place] = atom at hatom hmem
  have hgoto : ∀ target, (∀ index, ∃ place, atom.reference? index = some (place, target)) →
      (state.goto? atoms target).isSome := by
    intro target htarget
    obtain ⟨entry, hentry, rfl⟩ := mem_referencesFrom hmem htarget 0
    obtain ⟨place, hlabel⟩ := hemitted.targets entry hentry
    simp [AtomState.goto?, hlabel]
  rw [AtomState.step?, hatom]
  cases atom with
  | test left right comparison target =>
      simp only [Option.bind_some, AtomState.runAtom?]
      split
      · rfl
      · next hfails =>
          refine hgoto target fun index => ?_
          have hopposite : comparison.opposite?.isSome := by
            cases comparison <;> simp [Comparison.holds] at hfails ⊢ <;> rfl
          exact ⟨index + 2, by simp [Atom.reference?, hopposite]⟩
  | jump target => exact hgoto target fun index => ⟨index + 1, rfl⟩
  | _ => rfl

section Runs

variable {start : Store} (hemitted : Emitted atoms memory)
  (hassigned : ∀ name ∈ assignedOf atoms, isLiteral name = false)
  (hnegate : convention.negate = fun number => 0 - number)
  (hdecisive : DecisiveTests convention atoms start)

include hemitted hassigned hnegate hdecisive

/-- **The machine follows a run of the atoms.** -/
theorem Matches.reaches {state finish : AtomState} {machine : MachineState} {n : Nat}
    (hstate : Reaches (AtomState.step? convention atoms) ⟨0, start⟩ state)
    (hmatches : Matches convention atoms memory state machine)
    (hrun : stepN (AtomState.step? convention atoms) n state = some finish) :
    ∃ after, Reaches (MachineState.step? convention memory.program) machine after ∧
      Matches convention atoms memory finish after := by
  induction n generalizing state machine with
  | zero =>
      obtain rfl := Option.some.inj hrun
      exact ⟨machine, Reaches.refl _ _, hmatches⟩
  | succ n ih =>
      obtain ⟨next, hstep, hrest⟩ := Option.bind_eq_some_iff.mp hrun
      obtain ⟨k, middle, hsteps, hmiddle, -⟩ := hmatches.step hemitted hassigned hnegate
        (fun left right comparison target opposite =>
          hdecisive state.place state.store left right comparison target opposite hstate) hstep
      obtain ⟨after, hreach, hafter⟩ := ih (hstate.trans (Reaches.single hstep)) hmiddle hrest
      exact ⟨after, Reaches.trans ⟨k, hsteps⟩ hreach, hafter⟩

/-- **A machine that halts has followed a run of the atoms to its end.**  The code
of some atoms is empty; there the machine does not move, but the atoms do, and
they come closer to their end. -/
theorem Matches.terminates {state : AtomState} {machine halted : MachineState} (n : Nat)
    (hstate : Reaches (AtomState.step? convention atoms) ⟨0, start⟩ state)
    (hplace : state.place ≤ atoms.length)
    (hmatches : Matches convention atoms memory state machine)
    (hrun : stepN (MachineState.step? convention memory.program) n machine = some halted)
    (hhalted : MachineState.step? convention memory.program halted = none) :
    ∃ finish, Reaches (AtomState.step? convention atoms) state ⟨atoms.length, finish⟩ ∧
      Matches convention atoms memory ⟨atoms.length, finish⟩ halted := by
  by_cases hlt : state.place < atoms.length
  · have hsome : (AtomState.step? convention atoms state).isSome := hemitted.step?_isSome hlt
    obtain ⟨next, hstep⟩ := Option.isSome_iff_exists.mp hsome
    obtain ⟨k, middle, hsteps, hmiddle, hstill⟩ := hmatches.step hemitted hassigned hnegate
      (fun left right comparison target opposite =>
        hdecisive state.place state.store left right comparison target opposite hstate) hstep
    obtain ⟨rest, hrest, hafter⟩ := stepN_of_reached hsteps hrun hhalted
    obtain ⟨finish, hreach, hfinish⟩ := Matches.terminates rest
      (hstate.trans (Reaches.single hstep)) (place_le_of_step? hstep) hmiddle hafter hhalted
    exact ⟨finish, Reaches.head hstep hreach, hfinish⟩
  · obtain ⟨place, store⟩ := state
    obtain rfl : place = atoms.length := by
      simp only at hplace hlt
      omega
    have hfetch : memory.program[machine.place]? = some { operation := .halt } := by
      rw [hmatches.place, List.take_length]
      exact hemitted.fetch_halt
    have hstop : MachineState.step? convention memory.program machine = none :=
      MachineState.step?_of_isHalted ⟨_, hfetch, rfl⟩ convention
    obtain rfl := eq_of_stepN_of_stopped hrun hstop
    exact ⟨store, Reaches.refl _ _, hmatches⟩
termination_by (n, atoms.length - state.place)
decreasing_by
  -- an atom without code takes no step of the machine, but then control comes nearer to the end
  rw [Prod.lex_def]
  by_cases hk : k = 0
  · have hnext := hstill hk
    right
    omega
  · left
    omega

end Runs

/-! ## Emitted programs -/

/-- The variable that an atom assigns is one of its texts. -/
theorem Atom.mem_texts_of_assigned {atom : Atom} {name : String}
    (h : atom.assigned? = some name) : name ∈ atom.texts := by
  cases atom with
  | arithmetic operation left right result =>
      obtain rfl := Option.some.inj h
      simp [texts]
  | negate source result =>
      obtain rfl := Option.some.inj h
      simp [texts]
  | move source result =>
      obtain rfl := Option.some.inj h
      by_cases hzero : source = "0" <;> simp [texts, hzero]
  | _ => cases h

/-- **Code generation refines the atoms.**  Whatever is in the accumulator and the
flag when an emitted program is started, it halts exactly when the run of its
atoms from the store of zeros ends, provided that comparisons and their opposites
agree on the numbers the run compares.  Then the cell of every variable holds its
last value, and the cell of every literal still holds its number. -/
theorem emit_refines {atoms : List Atom} {memory : Memory} (h : emit atoms false = .ok memory)
    (hassigned : ∀ name ∈ assignedOf atoms, isLiteral name = false) {convention : Convention}
    (hnegate : convention.negate = fun number => 0 - number)
    (hdecisive : DecisiveTests convention atoms Store.zero) (accumulator : Float) (flag : Bool) :
    ((∃ halted, memory.HaltsIn convention accumulator flag halted) ↔
      ∃ finish, Terminates convention atoms Store.zero finish) ∧
    (∀ name ∈ assignedOf atoms, (memory.slot? name).isSome) ∧
    ∀ halted finish, memory.HaltsIn convention accumulator flag halted →
      Terminates convention atoms Store.zero finish →
      ∀ text slot, memory.slot? text = some slot →
        (isLiteral text = false → halted.cells (cellAddress slot) = finish text) ∧
        (isLiteral text = true →
          Numeral.value? text = some (halted.cells (cellAddress slot))) := by
  have hemitted := emitted_of_emit h
  have hstart : Matches convention atoms memory ⟨0, Store.zero⟩
      (memory.load accumulator flag) := ⟨rfl, (hemitted.stocked hassigned).holdsValues_initial⟩
  have hforward : ∀ finish, Terminates convention atoms Store.zero finish →
      ∃ halted, memory.HaltsIn convention accumulator flag halted := by
    rintro finish ⟨n, hrun⟩
    obtain ⟨after, hreach, hafter⟩ := hstart.reaches hemitted hassigned hnegate hdecisive
      (Reaches.refl _ _) hrun
    refine ⟨after, hreach, { operation := .halt }, ?_, rfl⟩
    rw [hafter.place, List.take_length]
    exact hemitted.fetch_halt
  have hbackward : ∀ halted, memory.HaltsIn convention accumulator flag halted → ∃ finish,
      Terminates convention atoms Store.zero finish ∧
        Matches convention atoms memory ⟨atoms.length, finish⟩ halted := by
    rintro halted ⟨⟨n, hrun⟩, hhalted⟩
    exact hstart.terminates hemitted hassigned hnegate hdecisive n (Reaches.refl _ _)
      (Nat.zero_le _) hrun (MachineState.step?_of_isHalted hhalted convention)
  refine ⟨⟨?_, ?_⟩, ?_, ?_⟩
  · rintro ⟨halted, hhalts⟩
    obtain ⟨finish, hterminates, -⟩ := hbackward halted hhalts
    exact ⟨finish, hterminates⟩
  · rintro ⟨finish, hterminates⟩
    exact hforward finish hterminates
  · intro name hname
    obtain ⟨atom, hatom, hassigns⟩ := List.mem_filterMap.mp hname
    exact hemitted.slotted atom hatom name (Atom.mem_texts_of_assigned hassigns)
  · intro halted finish hhalts hterminates text slot hslot
    obtain ⟨finish', hterminates', hmatches⟩ := hbackward halted hhalts
    obtain rfl := hterminates.unique hterminates'
    have hvalue := hmatches.cells text slot hslot
    constructor
    · intro hvariable
      rw [hvalue, Convention.value_of_not_isLiteral hvariable]
    · intro hliteral
      obtain ⟨bits, -, hbits⟩ := hemitted.stocked hassigned text slot hslot
      rw [IsInitial, if_pos hliteral] at hbits
      rw [hvalue]
      simp [Convention.value, hliteral, Convention.literal, Numeral.value?, hbits]

/-- A loop that counts down to zero.  Its test is for inequality, and that has the
opposite outcome of the test for equality on all numbers. -/
def countdownLoop : List Atom :=
  [.move "2" "x", .label "before", .test "x" "0" .notEqual "after",
    .arithmetic .subtract "x" "1" "x", .jump "before", .label "after"]

/-- The machine halts because the loop ends, with zero in the cell of the variable and with
two still in the cell of the literal. -/
theorem emit_refines_countdown :
    ∃ memory, emit countdownLoop false = .ok memory ∧ memory.program.length = 11 ∧
      ((∃ halted, memory.HaltsIn .machine 7 true halted) ↔
        ∃ finish, Terminates .machine countdownLoop Store.zero finish) ∧
      ∃ variableSlot literalSlot halted, memory.slot? "x" = some variableSlot ∧
        memory.slot? "2" = some literalSlot ∧ memory.HaltsIn .machine 7 true halted ∧
        halted.cells (cellAddress variableSlot) = 0 ∧
        halted.cells (cellAddress literalSlot) = 2 := by
  have hprogram : ((emit countdownLoop false).toOption.map fun memory =>
      (memory.program.length, memory.slot? "x", memory.slot? "2")) =
        some (11, some 1, some 0) := by
    decide +kernel
  obtain ⟨memory, hmemory, hfacts⟩ := Option.map_eq_some_iff.mp hprogram
  simp only [Prod.mk.injEq] at hfacts
  obtain ⟨hlength, hvariable, hliteral⟩ := hfacts
  have hemit := eq_ok_of_toOption hmemory
  have hdecisive : DecisiveTests .machine countdownLoop Store.zero := by
    intro place store left right comparison target opposite _ hatom hopposite
    have hcomparison : comparison = .notEqual := by
      rcases place with _ | _ | _ | _ | _ | _ | place <;> simp [countdownLoop] at hatom
      exact hatom.2.2.1.symm
    subst hcomparison
    obtain rfl := Option.some.inj hopposite
    simp [Comparison.holds, bne]
  obtain ⟨hhalts, -, hcells⟩ := emit_refines hemit (by decide) rfl hdecisive 7 true
  -- two rounds of four atoms, with two atoms before them and two after
  obtain ⟨finish, hfinish, hzero⟩ : ∃ finish,
      Terminates .machine countdownLoop Store.zero finish ∧ finish "x" = 0 :=
    exists_terminates_of_stepN (n := 12) (by decide +kernel)
  obtain ⟨halted, hhalted⟩ := hhalts.mpr ⟨finish, hfinish⟩
  have hvariableCell := (hcells halted finish hhalted hfinish "x" 1 hvariable).1 (by decide)
  have hliteralCell := (hcells halted finish hhalted hfinish "2" 0 hliteral).2 (by decide)
  have htwo : Numeral.value? "2" = some 2 := by decide +kernel
  rw [htwo] at hliteralCell
  exact ⟨memory, hemit, hlength, hhalts, 1, 0, halted, hvariable, hliteral, hhalted,
    hvariableCell.trans hzero, (Option.some.inj hliteralCell).symm⟩

end AtomCompiler
