import AtomCompiler.Execution.Machine
import AtomCompiler.Proofs.Refinement
import AtomCompiler.Proofs.Runs
import AtomCompiler.Proofs.Shortening

/-!
# Runs without the dropped instructions

A store that is dropped leaves an old number in its cell, and a load that is
dropped leaves one in the accumulator.  The shortened program has other numbers
there than the whole one, and whatever is computed from them may differ too.  So
the run of the whole program is watched, and at each step it is said what the
shortened program may have wrong.

* `Doubts` — what may be wrong, and how an instruction changes it;
* `Steady` — no jump is decided by a doubtful flag;
* `Harmless` — and no doubtful cell is left in the end;
* `Agrees.step` — the two programs agree wherever there is no doubt;
* `Agrees.reaches`, `Agrees.runsForever` — so they do along a whole run;
* `emit_shortened_runs_alike` — a program that is shortened steadily ends with the same
  numbers wherever there is no doubt, and one that is shortened harmlessly with all of
  them.
-/

namespace AtomCompiler

/-! ## Doubts -/

/-- Where a shortened program may hold other numbers than the whole one. -/
structure Doubts where
  accumulator : Bool := false
  flag : Bool := false
  cells : Nat → Bool := fun _ => false

namespace Doubts

/-- The doubts with one cell changed. -/
def put (doubts : Doubts) (address : Nat) (doubtful : Bool) : Doubts :=
  { doubts with cells := fun other => if other = address then doubtful else doubts.cells other }

/-- The doubts after an instruction of the whole program.  If it is kept, what it
writes is as doubtful as what it reads.  If it is dropped, what it should write is
doubtful unless the same number is there already. -/
def after (doubts : Doubts) (machine : MachineState) (instruction : Instruction) (kept : Bool) :
    Doubts :=
  let changes : Bool := machine.accumulator ≠ machine.cells instruction.address
  match instruction.operation with
  | .clear => { doubts with accumulator := false }
  | .load =>
    { doubts with
      accumulator :=
        if kept then doubts.cells instruction.address else doubts.accumulator || changes }
  | .store =>
    doubts.put instruction.address
      (if kept then doubts.accumulator else doubts.cells instruction.address || changes)
  | .arithmetic _ =>
    { doubts with accumulator := doubts.accumulator || doubts.cells instruction.address }
  | .compare =>
    -- a comparison that always holds does not look at the numbers
    { doubts with
      flag := Comparison.ofCode? instruction.comparison ≠ some .always
        && (doubts.accumulator || doubts.cells instruction.address) }
  | .jump => doubts
  | .halt => doubts

end Doubts

/-- A state of the machine that runs the whole program, and what the shortened one
may have wrong there. -/
structure Watched where
  machine : MachineState
  doubts : Doubts

/-- One step of the whole program, watched; `mask` says which instructions the
shortened one keeps. -/
def Watched.step? (convention : Convention) (program : List Instruction) (mask : List Bool)
    (watched : Watched) : Option Watched :=
  match program[watched.machine.place]?, mask[watched.machine.place]? with
  | some instruction, some kept =>
    (watched.machine.runInstruction? convention instruction).map fun next =>
      ⟨next, watched.doubts.after watched.machine instruction kept⟩
  | _, _ => none

/-- The machine with memory loaded, before there is any doubt. -/
def Memory.watch (memory : Memory) (accumulator : Float) (flag : Bool) : Watched :=
  ⟨memory.load accumulator flag, {}⟩

/-- The next instruction is not a jump that depends on a doubtful flag. -/
def Watched.isSteady (program : List Instruction) (watched : Watched) : Bool :=
  program[watched.machine.place]?.all fun instruction =>
    match instruction.operation with
    | .jump => !watched.doubts.flag
    | _ => true

/-- Nothing doubtful counts at the next instruction: a jump must not depend on a
doubtful flag, and when the machine halts no cell of a text may be doubtful. -/
def Watched.isSure (memory : Memory) (watched : Watched) : Bool :=
  memory.program[watched.machine.place]?.all fun instruction =>
    match instruction.operation with
    | .jump => !watched.doubts.flag
    | .halt => memory.slots.toList.all fun (_, slot) => !watched.doubts.cells (cellAddress slot)
    | _ => true

/-- Both programs go the same way, from the given state on. -/
def Steady (convention : Convention) (memory : Memory) (mask : List Bool)
    (start : Watched) : Prop :=
  ∀ watched, Reaches (Watched.step? convention memory.program mask) start watched →
    watched.isSteady memory.program = true

/-- Nothing that is dropped is missed, from the given state on. -/
def Harmless (convention : Convention) (memory : Memory) (mask : List Bool)
    (start : Watched) : Prop :=
  ∀ watched, Reaches (Watched.step? convention memory.program mask) start watched →
    watched.isSure memory = true

/-- Two memories do the same: either both run forever, or both halt with the same
number in the cell of every text. -/
def RunAlike (convention : Convention) (memory other : Memory) (accumulator : Float)
    (flag : Bool) : Prop :=
  (RunsForever (MachineState.step? convention memory.program) (memory.load accumulator flag) ∧
    RunsForever (MachineState.step? convention other.program) (other.load accumulator flag)) ∨
  ∃ halted halted', memory.HaltsIn convention accumulator flag halted ∧
    other.HaltsIn convention accumulator flag halted' ∧
    ∀ text slot, memory.slot? text = some slot →
      halted'.cells (cellAddress slot) = halted.cells (cellAddress slot)

/-- Two memories do the same as far as there is no doubt: either both run forever, or
both halt with the same number in every cell that is not doubtful then. -/
def RunAlikeWhereSure (convention : Convention) (memory other : Memory) (mask : List Bool)
    (accumulator : Float) (flag : Bool) : Prop :=
  (RunsForever (MachineState.step? convention memory.program) (memory.load accumulator flag) ∧
    RunsForever (MachineState.step? convention other.program) (other.load accumulator flag)) ∨
  ∃ watched halted, Reaches (Watched.step? convention memory.program mask)
      (memory.watch accumulator flag) watched ∧
    memory.HaltsIn convention accumulator flag watched.machine ∧
    other.HaltsIn convention accumulator flag halted ∧
    ∀ address, watched.doubts.cells address = false →
      halted.cells address = watched.machine.cells address

section Harmless

variable {convention : Convention} {memory : Memory} {mask : List Bool} {watched : Watched}
  {instruction : Instruction}

/-- A jump that is steady does not depend on a doubtful flag. -/
theorem Watched.flag_of_isSteady (h : watched.isSteady memory.program = true)
    (hfetch : memory.program[watched.machine.place]? = some instruction)
    (hjump : instruction.operation = .jump) : watched.doubts.flag = false := by
  simpa [isSteady, hfetch, hjump] using h

/-- Whatever is sure is steady: jumps are asked the same. -/
theorem Watched.isSteady_of_isSure (h : watched.isSure memory = true) :
    watched.isSteady memory.program = true := by
  unfold isSure at h
  unfold isSteady
  cases hfetch : memory.program[watched.machine.place]? with
  | none => rfl
  | some instruction =>
      rw [hfetch] at h
      cases hoperation : instruction.operation <;> simp_all

/-- No cell of a text is doubtful at a `halt` that is sure. -/
theorem Watched.cells_of_isSure (h : watched.isSure memory = true)
    (hfetch : memory.program[watched.machine.place]? = some instruction)
    (hhalt : instruction.operation = .halt) {text : String} {slot : Nat}
    (hslot : memory.slot? text = some slot) :
    watched.doubts.cells (cellAddress slot) = false := by
  have hall : ∀ entry ∈ memory.slots.toList,
      watched.doubts.cells (cellAddress entry.2) = false := by
    simpa [isSure, hfetch, hhalt] using h
  exact hall (text, slot) (Std.TreeMap.mem_toList_iff_getElem?_eq_some.mpr hslot)

/-- A harmless run is steady. -/
theorem Harmless.steady {start : Watched} (h : Harmless convention memory mask start) :
    Steady convention memory mask start :=
  fun watched hreach => Watched.isSteady_of_isSure (h watched hreach)

/-- A run that is steady from its start is steady from every later state. -/
theorem Steady.of_reaches {start : Watched} (h : Steady convention memory mask start)
    (hreach : Reaches (Watched.step? convention memory.program mask) start watched) :
    Steady convention memory mask watched :=
  fun later hlater => h later (hreach.trans hlater)

/-- A run that stops can be checked state by state. -/
theorem all_of_stepN {start : Watched} {n : Nat} {check : Watched → Bool}
    (hstop : stepN (Watched.step? convention memory.program mask) n start = none)
    (hcheck : ∀ k < n, (stepN (Watched.step? convention memory.program mask) k start).all
      check = true)
    (hreach : Reaches (Watched.step? convention memory.program mask) start watched) :
    check watched = true := by
  obtain ⟨k, hrun⟩ := hreach
  have hlt : k < n := by
    refine Nat.lt_of_not_le fun hle => ?_
    have hsome := stepN_isSome_of_le hle (by rw [hrun]; rfl)
    simp [hstop] at hsome
  simpa [hrun] using hcheck k hlt

end Harmless

/-! ## One step -/

/-- The shortened program stands where the whole one does, and has the same
numbers wherever there is no doubt. -/
structure Agrees (mask : List Bool) (watched : Watched) (short : MachineState) : Prop where
  place : short.place = moved 0 mask watched.machine.place
  accumulator : watched.doubts.accumulator = false →
    short.accumulator = watched.machine.accumulator
  flag : watched.doubts.flag = false → short.flag = watched.machine.flag
  cells : ∀ address, watched.doubts.cells address = false →
    short.cells address = watched.machine.cells address

section Step

variable {convention : Convention} {mask : List Bool} {watched : Watched}
  {short next : MachineState} {instruction : Instruction}

/-- The cells still agree after the whole program has put a number into one. -/
theorem Agrees.put_cells (h : Agrees mask watched short) {address : Nat} {doubtful : Bool}
    {number : Float} {cells : Nat → Float} (hnumber : doubtful = false → cells address = number)
    (hothers : ∀ other, other ≠ address → cells other = short.cells other) :
    ∀ other, (watched.doubts.put address doubtful).cells other = false →
      cells other = (watched.machine.put address number).cells other := by
  intro other hsure
  simp only [Doubts.put, MachineState.put] at hsure ⊢
  by_cases heq : other = address
  · subst heq
    simp only [if_true] at hsure ⊢
    exact hnumber hsure
  · simp only [heq, if_false] at hsure ⊢
    rw [hothers other heq, h.cells other hsure]

/-- A comparison comes out the same on both sides, unless it looks at a doubtful
number. -/
theorem Agrees.compare_eq (h : Agrees mask watched short)
    (hcompare : instruction.operation = .compare)
    (hsure : (watched.doubts.after watched.machine instruction true).flag = false) :
    short.compare instruction = watched.machine.compare instruction := by
  by_cases halways : Comparison.ofCode? instruction.comparison = some .always
  · simp [MachineState.compare, halways, Comparison.holds]
  · have hnumbers : (watched.doubts.accumulator ||
        watched.doubts.cells instruction.address) = false := by
      simpa [Doubts.after, hcompare, halways] using hsure
    obtain ⟨haccumulator, hcell⟩ := Bool.or_eq_false_iff.mp hnumbers
    rw [MachineState.compare, MachineState.compare, h.accumulator haccumulator, h.cells _ hcell]

/-- A kept instruction does the same in the shortened program. -/
theorem Agrees.run_kept (h : Agrees mask watched short)
    (hkept : mask[watched.machine.place]? = some true)
    (hflag : instruction.operation = .jump → watched.doubts.flag = false)
    (haddress : instruction.operation = .jump →
      instruction.address / wordBytes < 0x40000000)
    (hrun : watched.machine.runInstruction? convention instruction = some next) :
    ∃ after, short.runInstruction? convention (instruction.redirect mask) = some after ∧
      Agrees mask ⟨next, watched.doubts.after watched.machine instruction true⟩ after := by
  have hplace : short.place + 1 = moved 0 mask (watched.machine.place + 1) := by
    rw [moved_add_one hkept, h.place]
    rfl
  obtain ⟨operation, comparison, register, address⟩ := instruction
  cases operation with
  | clear =>
      obtain rfl := Option.some.inj hrun
      exact ⟨_, rfl, hplace, fun _ => rfl, h.flag, h.cells⟩
  | load =>
      obtain rfl := Option.some.inj hrun
      exact ⟨_, rfl, hplace, h.cells address, h.flag, h.cells⟩
  | store =>
      obtain rfl := Option.some.inj hrun
      refine ⟨_, rfl, hplace, h.accumulator, h.flag,
        h.put_cells (fun hsure => ?_) fun other hne => ?_⟩
      · exact (if_pos rfl).trans (h.accumulator hsure)
      · exact if_neg hne
  | arithmetic operation =>
      obtain rfl := Option.some.inj hrun
      refine ⟨_, rfl, hplace, fun hsure => ?_, h.flag, h.cells⟩
      obtain ⟨haccumulator, hcell⟩ := Bool.or_eq_false_iff.mp hsure
      show convention.result operation short.accumulator (short.cells address) = _
      rw [h.accumulator haccumulator, h.cells address hcell]
  | compare =>
      obtain rfl := Option.some.inj hrun
      exact ⟨_, rfl, hplace, h.accumulator, h.compare_eq rfl, h.cells⟩
  | jump =>
      have hgoal : (Instruction.redirect mask ⟨.jump, comparison, register, address⟩).address /
          wordBytes = moved 0 mask (address / wordBytes) :=
        Instruction.address_redirect rfl (haddress rfl)
      obtain rfl := Option.some.inj hrun
      refine ⟨_, rfl, ?_⟩
      rw [h.flag (hflag rfl)]
      split
      · exact ⟨hgoal, h.accumulator, fun _ => rfl, h.cells⟩
      · exact ⟨hplace, h.accumulator, h.flag, h.cells⟩
  | halt => cases hrun

/-- A dropped instruction leaves the shortened program where it is. -/
theorem Agrees.run_dropped (h : Agrees mask watched short)
    (hdropped : mask[watched.machine.place]? = some false)
    (htransfer : instruction.isTransfer = true)
    (hrun : watched.machine.runInstruction? convention instruction = some next) :
    next.place = watched.machine.place + 1 ∧
      Agrees mask ⟨next, watched.doubts.after watched.machine instruction false⟩ short := by
  have hplace : short.place = moved 0 mask (watched.machine.place + 1) := by
    rw [moved_add_one hdropped, h.place]
    rfl
  have hsame : decide (watched.machine.accumulator ≠ watched.machine.cells instruction.address) =
      false → watched.machine.accumulator = watched.machine.cells instruction.address := by
    intro hequal
    simpa using hequal
  obtain ⟨operation, comparison, register, address⟩ := instruction
  cases operation with
  | load =>
      obtain rfl := Option.some.inj hrun
      refine ⟨rfl, hplace, fun hsure => ?_, h.flag, h.cells⟩
      obtain ⟨haccumulator, hequal⟩ := Bool.or_eq_false_iff.mp hsure
      rw [h.accumulator haccumulator]
      exact hsame hequal
  | store =>
      obtain rfl := Option.some.inj hrun
      refine ⟨rfl, hplace, h.accumulator, h.flag, h.put_cells (fun hsure => ?_) fun _ _ => rfl⟩
      obtain ⟨hcell, hequal⟩ := Bool.or_eq_false_iff.mp hsure
      rw [h.cells address hcell]
      exact (hsame hequal).symm
  | _ => cases htransfer

end Step

/-! ## Whole runs -/

/-- What is said of the instructions that a program is shortened to: only loads
and stores are dropped, and the program is left nowhere but at its last
instruction. -/
structure Shortens (mask : List Bool) (program : List Instruction) : Prop where
  length : mask.length = program.length
  dropped : ∀ (place : Nat) (instruction : Instruction), mask[place]? = some false →
    program[place]? = some instruction → instruction.isTransfer = true
  jumps : ∀ instruction ∈ program, instruction.operation = .jump →
    instruction.address / wordBytes < program.length
  bounded : program.length < 0x40000000
  last : program[program.length - 1]? = some { operation := .halt }

/-- The survivors of an emitted program shorten it: what goes are loads and stores, and it still
ends with its halt. -/
theorem shortens_of_emit {atoms : List Atom} {memory : Memory}
    (h : emit atoms false = .ok memory) : Shortens (survivorsOf atoms) memory.program := by
  have hemitted := emitted_of_emit h
  obtain ⟨hlength, hdropped⟩ := survivorsOf_spec h
  refine ⟨hlength, hdropped, fun instruction hmem hjump => ?_, ?_, ?_⟩
  · rw [hemitted.program, List.mem_append] at hmem
    rcases hmem with hmem | hmem
    · obtain ⟨atom, -, hcode⟩ := List.mem_flatMap.mp hmem
      obtain ⟨target, haddress⟩ := Atom.exists_goal_of_mem_code hcode hjump
      rw [haddress, hemitted.addressOf_goalIn, hemitted.length_program]
      exact Nat.lt_succ_of_le (wordsOf_take_le _ _)
    · obtain rfl := List.mem_singleton.mp hmem
      cases hjump
  · have hle := hemitted.length_le
    simp only [programBytes, wordBytes] at hle
    omega
  · rw [hemitted.length_program, Nat.add_sub_cancel]
    exact hemitted.fetch_halt

namespace Shortens

variable {convention : Convention} {mask : List Bool} {program : List Instruction}

/-- The answer for an instruction. -/
theorem exists_kept (h : Shortens mask program) {place : Nat} (hlt : place < program.length) :
    ∃ kept, mask[place]? = some kept := by
  rw [← h.length] at hlt
  exact ⟨_, List.getElem?_eq_getElem hlt⟩

/-- A step of the whole program is a step that can be watched. -/
theorem map_machine_step? (h : Shortens mask program) (watched : Watched) :
    (watched.step? convention program mask).map Watched.machine =
      watched.machine.step? convention program := by
  rw [Watched.step?, MachineState.step?]
  cases hfetch : program[watched.machine.place]? with
  | none => rfl
  | some instruction =>
      obtain ⟨kept, hkept⟩ := h.exists_kept (List.getElem?_eq_some_iff.mp hfetch).1
      simp [hkept, Function.comp_def]

end Shortens

/-- What a watched step does: an instruction runs, and the doubts are those after it. -/
theorem Watched.step?_eq_some {convention : Convention} {program : List Instruction}
    {mask : List Bool} {watched next : Watched}
    (h : watched.step? convention program mask = some next) :
    ∃ instruction kept, program[watched.machine.place]? = some instruction ∧
      mask[watched.machine.place]? = some kept ∧
      watched.machine.runInstruction? convention instruction = some next.machine ∧
      next.doubts = watched.doubts.after watched.machine instruction kept := by
  rw [Watched.step?] at h
  split at h
  · next instruction kept hfetch hkept =>
      obtain ⟨machine, hrun, rfl⟩ := Option.map_eq_some_iff.mp h
      exact ⟨instruction, kept, hfetch, hkept, hrun, rfl⟩
  · cases h

/-- The machine goes to the next instruction or jumps. -/
theorem MachineState.place_of_runInstruction? {convention : Convention}
    {machine next : MachineState} {instruction : Instruction}
    (h : machine.runInstruction? convention instruction = some next) :
    instruction.operation ≠ .halt ∧ (next.place = machine.place + 1 ∨
      (instruction.operation = .jump ∧ next.place = instruction.address / wordBytes)) := by
  cases hoperation : instruction.operation <;>
    simp only [runInstruction?, hoperation, Option.some.injEq, reduceCtorEq] at h
  case jump =>
    subst h
    by_cases hflag : machine.flag <;> simp [hflag, advance]
  all_goals
    subst h
    simp [advance, put]

section Runs

variable {convention : Convention} {memory : Memory} {mask : List Bool} {watched next : Watched}
  {short : MachineState}

/-- The machine never leaves the program. -/
theorem Shortens.place_lt (h : Shortens mask memory.program) {machine next : MachineState}
    (hstep : machine.step? convention memory.program = some next) :
    next.place < memory.program.length := by
  obtain ⟨instruction, hfetch, hrun⟩ := Option.bind_eq_some_iff.mp hstep
  obtain ⟨hlt, hget⟩ := List.getElem?_eq_some_iff.mp hfetch
  obtain ⟨hhalt, hnext | ⟨hjump, hnext⟩⟩ := MachineState.place_of_runInstruction? hrun
  · -- the last instruction is a halt, so this is not the last one
    have hne : machine.place ≠ memory.program.length - 1 := by
      intro heq
      have hlast := h.last
      rw [← heq, hfetch] at hlast
      exact hhalt (by rw [Option.some.inj hlast])
    omega
  · rw [hnext]
    exact h.jumps instruction (hget ▸ List.getElem_mem hlt) hjump

/-- Nor does a run leave the program. -/
theorem Shortens.place_lt_of_reaches (h : Shortens mask memory.program)
    {machine finish : MachineState} (hlt : machine.place < memory.program.length)
    (hreach : Reaches (MachineState.step? convention memory.program) machine finish) :
    finish.place < memory.program.length := by
  obtain ⟨n, hrun⟩ := hreach
  induction n generalizing machine with
  | zero =>
      obtain rfl := Option.some.inj hrun
      exact hlt
  | succ n ih =>
      obtain ⟨next, hstep, hrest⟩ := Option.bind_eq_some_iff.mp hrun
      exact ih (h.place_lt hstep) hrest

/-- **The two programs agree after each step.**  At a dropped instruction only the
whole program moves, and it comes closer to its end. -/
theorem Agrees.step (hshortens : Shortens mask memory.program)
    (hsteady : Steady convention memory mask watched) (h : Agrees mask watched short)
    (hstep : watched.step? convention memory.program mask = some next) :
    (next.machine.place = watched.machine.place + 1 ∧ Agrees mask next short) ∨
      ∃ after, short.step? convention (shortenedProgram mask memory.program) = some after ∧
        Agrees mask next after := by
  obtain ⟨instruction, kept, hfetch, hkept, hrun, hdoubts⟩ := Watched.step?_eq_some hstep
  obtain ⟨machine, doubts⟩ := next
  obtain rfl := hdoubts
  cases kept with
  | false => exact .inl (h.run_dropped hkept (hshortens.dropped _ _ hkept hfetch) hrun)
  | true =>
      right
      have hflag := Watched.flag_of_isSteady (hsteady watched (Reaches.refl _ _)) hfetch
      have haddress : instruction.operation = .jump →
          instruction.address / wordBytes < 0x40000000 := by
        intro hjump
        have hlt := hshortens.jumps instruction (List.mem_of_getElem? hfetch) hjump
        have hbound := hshortens.bounded
        omega
      obtain ⟨after, hafter, hagrees⟩ := h.run_kept hkept hflag haddress hrun
      refine ⟨after, ?_, hagrees⟩
      rw [MachineState.step?, h.place, getElem?_shortenedProgram hshortens.length hkept, hfetch]
      exact hafter

/-- **The shortened program follows the whole one.** -/
theorem Agrees.reaches (hshortens : Shortens mask memory.program)
    (hsteady : Steady convention memory mask watched) (h : Agrees mask watched short)
    {n : Nat} {finish : Watched}
    (hrun : stepN (Watched.step? convention memory.program mask) n watched = some finish) :
    ∃ after, Reaches (MachineState.step? convention (shortenedProgram mask memory.program))
        short after ∧ Agrees mask finish after := by
  induction n generalizing watched short with
  | zero =>
      obtain rfl := Option.some.inj hrun
      exact ⟨short, Reaches.refl _ _, h⟩
  | succ n ih =>
      obtain ⟨next, hstep, hrest⟩ := Option.bind_eq_some_iff.mp hrun
      have hlater := hsteady.of_reaches (Reaches.single hstep)
      rcases h.step hshortens hsteady hstep with ⟨-, hagrees⟩ | ⟨middle, hmiddle, hagrees⟩
      · exact ih hlater hagrees hrest
      · obtain ⟨after, hreach, hafter⟩ := ih hlater hagrees hrest
        exact ⟨after, Reaches.head hmiddle hreach, hafter⟩

/-- A program that runs forever comes to an instruction that is kept. -/
theorem Agrees.next_of_runsForever {watched : Watched} {short : MachineState}
    (hshortens : Shortens mask memory.program)
    (hforever : RunsForever (Watched.step? convention memory.program mask) watched)
    (hsteady : Steady convention memory mask watched) (h : Agrees mask watched short) :
    ∃ after, short.step? convention (shortenedProgram mask memory.program) = some after ∧
      ∃ next, RunsForever (Watched.step? convention memory.program mask) next ∧
        Steady convention memory mask next ∧ Agrees mask next after := by
  obtain ⟨next, hstep, hmore⟩ := hforever.next
  have hlater := hsteady.of_reaches (Reaches.single hstep)
  rcases h.step hshortens hsteady hstep with ⟨hplace, hagrees⟩ | ⟨after, hafter, hagrees⟩
  · exact hagrees.next_of_runsForever hshortens hmore hlater
  · exact ⟨after, hafter, next, hmore, hlater, hagrees⟩
termination_by memory.program.length - watched.machine.place
decreasing_by
  obtain ⟨instruction, -, hfetch, -⟩ := Watched.step?_eq_some hstep
  have hlt := (List.getElem?_eq_some_iff.mp hfetch).1
  omega

/-- **If the whole program runs forever, so does the shortened one.** -/
theorem Agrees.runsForever (hshortens : Shortens mask memory.program)
    (hforever : RunsForever (Watched.step? convention memory.program mask) watched)
    (hsteady : Steady convention memory mask watched) (h : Agrees mask watched short) :
    RunsForever (MachineState.step? convention (shortenedProgram mask memory.program)) short := by
  refine runsForever_of_invariant
    (fun short => ∃ watched,
      RunsForever (Watched.step? convention memory.program mask) watched ∧
        Steady convention memory mask watched ∧ Agrees mask watched short)
    ?_ ⟨watched, hforever, hsteady, h⟩
  rintro short ⟨watched, hforever, hsteady, h⟩
  exact h.next_of_runsForever hshortens hforever hsteady

/-- A machine that stops has come to a `halt`, and so has the shortened program. -/
theorem Agrees.halted (hshortens : Shortens mask memory.program) (h : Agrees mask watched short)
    (hplace : watched.machine.place < memory.program.length)
    (hstop : watched.machine.step? convention memory.program = none) :
    watched.machine.isHalted memory.program ∧
      short.isHalted (shortenedProgram mask memory.program) := by
  have hfetch := List.getElem?_eq_getElem hplace
  generalize memory.program[watched.machine.place] = instruction at hfetch
  have hhalt : instruction.operation = .halt := by
    rw [MachineState.step?, hfetch] at hstop
    cases hoperation : instruction.operation <;>
      simp [MachineState.runInstruction?, hoperation] at hstop ⊢
  obtain ⟨kept, hkept⟩ := hshortens.exists_kept hplace
  cases kept with
  | false =>
      have htransfer := hshortens.dropped _ _ hkept hfetch
      simp [Instruction.isTransfer, hhalt] at htransfer
  | true =>
      refine ⟨⟨instruction, hfetch, hhalt⟩, instruction.redirect mask, ?_, ?_⟩
      · rw [h.place, getElem?_shortenedProgram hshortens.length hkept, hfetch]
        rfl
      · rw [Instruction.operation_redirect, hhalt]

end Runs

/-! ## Emitted programs -/

/-- A run that is watched is the run of the whole program. -/
theorem Shortens.map_machine_watch {memory : Memory} {mask : List Bool}
    (h : Shortens mask memory.program) (convention : Convention) (accumulator : Float)
    (flag : Bool) (n : Nat) :
    (stepN (Watched.step? convention memory.program mask) n
        (memory.watch accumulator flag)).map Watched.machine =
      stepN (MachineState.step? convention memory.program) n (memory.load accumulator flag) :=
  map_stepN h.map_machine_step? n _

/-- The shortened memory does what the whole one does as far as there is no doubt, if no
jump is decided by a doubtful flag. -/
theorem Shortens.runAlikeWhereSure {memory : Memory} {mask : List Bool}
    (hshortens : Shortens mask memory.program) {convention : Convention} {accumulator : Float}
    {flag : Bool} (hsteady : Steady convention memory mask (memory.watch accumulator flag)) :
    RunAlikeWhereSure convention memory
      { memory with program := shortenedProgram mask memory.program } mask accumulator flag := by
  have hstart : Agrees mask (memory.watch accumulator flag) (memory.load accumulator flag) :=
    ⟨(moved_zero mask).symm, fun _ => rfl, fun _ => rfl, fun _ _ => rfl⟩
  rcases stops_or_runsForever (MachineState.step? convention memory.program)
    (memory.load accumulator flag) with ⟨finish, ⟨n, hrun⟩, hstop⟩ | hforever
  · right
    have hwatched := hshortens.map_machine_watch convention accumulator flag n
    rw [hrun] at hwatched
    obtain ⟨watched, hrun', rfl⟩ := Option.map_eq_some_iff.mp hwatched
    obtain ⟨after, hreach, hagrees⟩ := hstart.reaches hshortens hsteady hrun'
    have hplace : watched.machine.place < memory.program.length := by
      refine hshortens.place_lt_of_reaches ?_ ⟨n, hrun⟩
      exact Nat.lt_of_le_of_lt (Nat.zero_le _) (List.getElem?_eq_some_iff.mp hshortens.last).1
    obtain ⟨hhalted, hhalted'⟩ := hagrees.halted hshortens hplace hstop
    exact ⟨watched, after, ⟨n, hrun'⟩, ⟨⟨n, hrun⟩, hhalted⟩, ⟨hreach, hhalted'⟩, hagrees.cells⟩
  · left
    refine ⟨hforever, hstart.runsForever hshortens (fun n => ?_) hsteady⟩
    rw [← Option.isSome_map, hshortens.map_machine_watch]
    exact hforever n

/-- Two memories that do the same as far as there is no doubt both halt if the run of the
first was watched to its end, with the same number in every cell that is not doubtful
there. -/
theorem RunAlikeWhereSure.at_end {convention : Convention} {memory other : Memory}
    {mask : List Bool} {accumulator : Float} {flag : Bool}
    (h : RunAlikeWhereSure convention memory other mask accumulator flag)
    (hshortens : Shortens mask memory.program) {watched : Watched}
    (hreach : Reaches (Watched.step? convention memory.program mask)
      (memory.watch accumulator flag) watched)
    (hstop : watched.step? convention memory.program mask = none) :
    ∃ halted, memory.HaltsIn convention accumulator flag watched.machine ∧
      other.HaltsIn convention accumulator flag halted ∧
      ∀ address, watched.doubts.cells address = false →
        halted.cells address = watched.machine.cells address := by
  obtain ⟨hforever, -⟩ | ⟨finish, halted, hfinish, hhalts, hhalts', hcells⟩ := h
  · obtain ⟨n, hrun⟩ := hreach
    have hsome := hforever (n + 1)
    rw [← hshortens.map_machine_watch, stepN_add _ n 1, hrun] at hsome
    simp [stepN, hstop] at hsome
  · have hend : finish.step? convention memory.program mask = none := by
      rw [← Option.map_eq_none_iff, hshortens.map_machine_step?]
      exact MachineState.step?_of_isHalted hhalts.2 _
    obtain rfl := Reaches.eq_of_stopped hreach hfinish hstop hend
    exact ⟨halted, hhalts, hhalts', hcells⟩

/-- Where nothing that is dropped is missed, no cell of a text is doubtful in the end, so
all of them are the same. -/
theorem RunAlikeWhereSure.runAlike {convention : Convention} {memory other : Memory}
    {mask : List Bool} {accumulator : Float} {flag : Bool}
    (h : RunAlikeWhereSure convention memory other mask accumulator flag)
    (hharmless : Harmless convention memory mask (memory.watch accumulator flag)) :
    RunAlike convention memory other accumulator flag := by
  obtain hforever | ⟨watched, halted, hreach, hwhole, hshort, hcells⟩ := h
  · exact .inl hforever
  · obtain ⟨instruction, hfetch, hhalt⟩ := hwhole.2
    refine .inr ⟨watched.machine, halted, hwhole, hshort, fun text slot hslot => ?_⟩
    exact hcells _ (Watched.cells_of_isSure (hharmless watched hreach) hfetch hhalt hslot)

/-- **Dropping loads and stores preserves behaviour as long as none of them is
missed.**  Some atoms have a shortened program exactly when they have a whole one,
and the data cells of the two are the same.  Let both be started with the same
accumulator and the same flag, and let no jump along the run of the whole program be
decided by a number that the shortened one may have wrong.  Then either both run
forever, or both halt with the same number in every cell that the shortened one cannot
have wrong; and if no cell of a text is left in doubt, with the same number in the cell
of every text. -/
theorem emit_shortened_runs_alike (atoms : List Atom) :
    ((∃ short, emit atoms true = .ok short) ↔ ∃ whole, emit atoms false = .ok whole) ∧
    ∀ whole short, emit atoms false = .ok whole → emit atoms true = .ok short →
      short.slots = whole.slots ∧ short.cells = whole.cells ∧
      ∀ convention accumulator flag,
        let start := whole.watch accumulator flag
        (Steady convention whole (survivorsOf atoms) start →
          RunAlikeWhereSure convention whole short (survivorsOf atoms) accumulator flag) ∧
        (Harmless convention whole (survivorsOf atoms) start →
          RunAlike convention whole short accumulator flag) := by
  rw [emit_shortened]
  cases hwhole : emit atoms false with
  | error error =>
      refine ⟨⟨?_, ?_⟩, ?_⟩
      · intro hshort
        obtain ⟨short, hshort⟩ := hshort
        cases hshort
      · intro hwhole
        obtain ⟨whole, hwhole⟩ := hwhole
        cases hwhole
      · intro whole short hfalse
        cases hfalse
  | ok memory =>
      refine ⟨⟨fun _ => ⟨memory, rfl⟩, fun _ => ⟨_, rfl⟩⟩, ?_⟩
      intro whole short hok hshort
      obtain rfl := Except.ok.inj hok
      obtain rfl := Except.ok.inj hshort
      have hshortens := shortens_of_emit hwhole
      refine ⟨rfl, rfl, fun convention accumulator flag => ⟨hshortens.runAlikeWhereSure, ?_⟩⟩
      intro hharmless
      exact (hshortens.runAlikeWhereSure hharmless.steady).runAlike hharmless

/-- A loop that adds one to a number and doubles the sum. -/
def doublingLoop : List Atom :=
  [.move "1" "x", .label "before", .test "x" "8" .less "after", .arithmetic .add "x" "1" "x",
    .arithmetic .multiply "x" "2" "x", .jump "before", .label "after"]

/-- A number that is copied twice. -/
def copiedTwice : List Atom := [.move "5" "x", .move "x" "y"]

/-- In the loop the sum is neither stored nor loaded again before it is doubled.  The first
copy of a number that is copied twice is not stored, and the second one is right all the
same. -/
theorem emit_shortened_runs_alike_doubling :
    (∃ whole short, emit doublingLoop false = .ok whole ∧ emit doublingLoop true = .ok short ∧
      whole.program.length = 14 ∧ short.program.length = 12 ∧
      Harmless .machine whole (survivorsOf doublingLoop) (whole.watch 7 true) ∧
      RunAlike .machine whole short 7 true) ∧
    ∃ whole short, emit copiedTwice false = .ok whole ∧ emit copiedTwice true = .ok short ∧
      Steady .machine whole (survivorsOf copiedTwice) (whole.watch 0 false) ∧
      ∃ slot halted halted', whole.slot? "y" = some slot ∧
        whole.HaltsIn .machine 0 false halted ∧ short.HaltsIn .machine 0 false halted' ∧
        halted'.cells (cellAddress slot) = halted.cells (cellAddress slot) := by
  constructor
  · -- the run halts after twenty-seven steps
    have hcheck : ((emit doublingLoop false).toOption.map fun memory =>
        (memory.program.length,
          (stepN (Watched.step? .machine memory.program (survivorsOf doublingLoop)) 28
            (memory.watch 7 true)).isNone,
          (List.range 28).all fun k =>
            (stepN (Watched.step? .machine memory.program (survivorsOf doublingLoop)) k
              (memory.watch 7 true)).all (Watched.isSure memory))) = some (14, true, true) := by
      decide +kernel
    have hshort : ((emit doublingLoop true).toOption.map fun memory => memory.program.length) =
        some 12 := by
      decide +kernel
    obtain ⟨whole, hwhole, hfacts⟩ := Option.map_eq_some_iff.mp hcheck
    obtain ⟨hlength, hfacts⟩ := Prod.mk.inj hfacts
    obtain ⟨hstop, hsure⟩ := Prod.mk.inj hfacts
    obtain ⟨short, hshort, hlength'⟩ := Option.map_eq_some_iff.mp hshort
    have hwhole := eq_ok_of_toOption hwhole
    have hshort := eq_ok_of_toOption hshort
    have hharmless : Harmless .machine whole (survivorsOf doublingLoop) (whole.watch 7 true) :=
      fun watched hreach => all_of_stepN (Option.isNone_iff_eq_none.mp hstop)
        (fun k hk => List.all_eq_true.mp hsure k (List.mem_range.mpr hk)) hreach
    obtain ⟨-, -, halike⟩ := (emit_shortened_runs_alike doublingLoop).2 whole short hwhole hshort
    exact ⟨whole, short, hwhole, hshort, hlength, hlength', hharmless,
      (halike .machine 7 true).2 hharmless⟩
  · have hcheck : ((emit copiedTwice false).toOption.bind fun memory =>
        (stepN (Watched.step? .machine memory.program (survivorsOf copiedTwice)) 4
          (memory.watch 0 false)).map fun watched =>
            (memory.slot? "y", watched.doubts.cells (cellAddress 2),
              (stepN (Watched.step? .machine memory.program (survivorsOf copiedTwice)) 5
                (memory.watch 0 false)).isNone,
              (List.range 5).all fun k =>
                (stepN (Watched.step? .machine memory.program (survivorsOf copiedTwice)) k
                  (memory.watch 0 false)).all (Watched.isSteady memory.program))) =
          some (some 2, false, true, true) := by
      decide +kernel
    obtain ⟨whole, hwhole, hrun⟩ := Option.bind_eq_some_iff.mp hcheck
    obtain ⟨watched, hrun, hfacts⟩ := Option.map_eq_some_iff.mp hrun
    simp only [Prod.mk.injEq] at hfacts
    obtain ⟨hslot, hsure, hstop, hsteady⟩ := hfacts
    have hstop := Option.isNone_iff_eq_none.mp hstop
    have hwhole := eq_ok_of_toOption hwhole
    obtain ⟨short, hshort⟩ := (emit_shortened_runs_alike copiedTwice).1.mpr ⟨whole, hwhole⟩
    have hsteady : Steady .machine whole (survivorsOf copiedTwice) (whole.watch 0 false) :=
      fun later hreach => all_of_stepN hstop
        (fun k hk => List.all_eq_true.mp hsteady k (List.mem_range.mpr hk)) hreach
    obtain ⟨-, -, halike⟩ := (emit_shortened_runs_alike copiedTwice).2 whole short hwhole hshort
    have hlast : Watched.step? .machine whole.program (survivorsOf copiedTwice) watched =
        none := by
      rw [stepN_add _ 4 1, hrun] at hstop
      simpa [stepN] using hstop
    obtain ⟨halted, hhalts, hhalts', hcells⟩ := ((halike .machine 0 false).1 hsteady).at_end
      (shortens_of_emit hwhole) ⟨4, hrun⟩ hlast
    exact ⟨whole, short, hwhole, hshort, hsteady, 2, watched.machine, halted, hslot, hhalts,
      hhalts', hcells _ hsure⟩

/-- **Dropping loads and stores does not preserve behaviour in general.**  When a
number is copied twice, the variable in the middle is never stored, and it is zero
in the end. -/
theorem not_runAlike_shortened :
    ¬∀ atoms whole short, emit atoms false = .ok whole → emit atoms true = .ok short →
      ∀ convention accumulator flag, RunAlike convention whole short accumulator flag := by
  intro halike
  have hwhole : ((emit copiedTwice false).toOption.bind fun memory =>
      (stepN (MachineState.step? .machine memory.program) 4
        (memory.load 0 false)).map fun halted =>
          (memory.slot? "x", (MachineState.step? .machine memory.program
            halted).isNone, halted.cells (cellAddress 1))) = some (some 1, true, 5) := by
    decide +kernel
  have hshort : ((emit copiedTwice true).toOption.bind fun memory =>
      (stepN (MachineState.step? .machine memory.program) 2
        (memory.load 0 false)).map fun halted =>
          ((MachineState.step? .machine memory.program
            halted).isNone, halted.cells (cellAddress 1))) = some (true, 0) := by
    decide +kernel
  obtain ⟨whole, hwhole, hrun⟩ := Option.bind_eq_some_iff.mp hwhole
  obtain ⟨short, hshort, hrun'⟩ := Option.bind_eq_some_iff.mp hshort
  obtain ⟨halted, hrun, hfacts⟩ := Option.map_eq_some_iff.mp hrun
  obtain ⟨halted', hrun', hfacts'⟩ := Option.map_eq_some_iff.mp hrun'
  simp only [Prod.mk.injEq, Option.isNone_iff_eq_none] at hfacts hfacts'
  obtain ⟨hslot, hstop, hfive⟩ := hfacts
  obtain ⟨hstop', hzero⟩ := hfacts'
  rcases halike _ whole short (eq_ok_of_toOption hwhole) (eq_ok_of_toOption hshort)
    .machine 0 false with
    ⟨hforever, -⟩ | ⟨other, other', ⟨hreach, hhalts⟩, ⟨hreach', hhalts'⟩, hsame⟩
  · exact Reaches.not_runsForever ⟨4, hrun⟩ hstop hforever
  · obtain rfl := Reaches.eq_of_stopped ⟨4, hrun⟩ hreach hstop
      (MachineState.step?_of_isHalted hhalts _)
    obtain rfl := Reaches.eq_of_stopped ⟨2, hrun'⟩ hreach' hstop'
      (MachineState.step?_of_isHalted hhalts' _)
    have hequal := hsame "x" 1 hslot
    rw [hfive, hzero] at hequal
    exact absurd hequal (by decide +kernel)

end AtomCompiler
