import AtomCompiler.Proofs.Emission
import AtomCompiler.Proofs.Survivors

/-!
# Shortened programs

Redundant loads and stores are dropped before the jumps get their addresses.  The
same program comes out if the jumps get their addresses first: its jumps then go
to where their targets have moved.

* `survivorsOf` — which instructions of the program of some atoms are kept;
* `Relocations.patch_shortened` — addresses can be filled in before or after the
  instructions are dropped;
* `emit_shortened` — the shortened program of some atoms in terms of the whole
  one.
-/

namespace AtomCompiler

/-- Which instructions are kept when the program of a list of atoms is shortened. -/
def survivorsOf (atoms : List Atom) : List Bool :=
  match Emission.ofAtoms atoms with
  | .ok emission => survivors 0 emission.relocations emission.memory.program
  | .error _ => []

/-- A jump to where its target has moved; any other instruction stays as it is. -/
def Instruction.redirect (mask : List Bool) (instruction : Instruction) : Instruction :=
  if instruction.operation = .jump then
    { instruction with
      address := Relocations.addressOf (moved 0 mask (instruction.address / wordBytes)) }
  else instruction

/-- The program without the instructions that are dropped. -/
def shortenedProgram (mask : List Bool) (program : List Instruction) : List Instruction :=
  (keep mask program).map (Instruction.redirect mask)

/-- Only jumps are redirected. -/
theorem Instruction.redirect_of_ne {mask : List Bool} {instruction : Instruction}
    (h : instruction.operation ≠ .jump) : instruction.redirect mask = instruction :=
  if_neg h

/-- Redirecting changes no operation. -/
@[simp] theorem Instruction.operation_redirect (mask : List Bool) (instruction : Instruction) :
    (instruction.redirect mask).operation = instruction.operation := by
  rw [redirect]
  split <;> rfl

/-- A jump that is redirected goes to where its target has moved. -/
theorem Instruction.address_redirect {mask : List Bool} {instruction : Instruction}
    (hjump : instruction.operation = .jump)
    (haddress : instruction.address / wordBytes < 0x40000000) :
    (instruction.redirect mask).address / wordBytes =
      moved 0 mask (instruction.address / wordBytes) := by
  have hle := moved_le mask (instruction.address / wordBytes)
  rw [redirect, if_pos hjump, Relocations.addressOf_of_lt (by omega)]
  simp [wordBytes]

/-- A kept instruction is found where its index has moved. -/
theorem getElem?_shortenedProgram {mask : List Bool} {program : List Instruction}
    (hlength : mask.length = program.length) {place : Nat} (h : mask[place]? = some true) :
    (shortenedProgram mask program)[moved 0 mask place]? =
      program[place]?.map (Instruction.redirect mask) := by
  rw [shortenedProgram, List.getElem?_map, getElem?_keep hlength h]

/-! ## Addresses -/

/-- Filling in the address of a kept jump. -/
theorem modify_shortenedProgram {mask : List Bool} {program : List Instruction}
    (hlength : mask.length = program.length) {place target : Nat} {instruction : Instruction}
    (hkept : mask[place]? = some true) (hfetch : program[place]? = some instruction)
    (hjump : instruction.operation = .jump) (htarget : target < 0x40000000) :
    (shortenedProgram mask program).modify (moved 0 mask place)
        (fun instruction =>
          { instruction with address := Relocations.addressOf (moved 0 mask target) }) =
      shortenedProgram mask (program.modify place fun instruction =>
        { instruction with address := Relocations.addressOf target }) := by
  have haddress : Relocations.addressOf target / wordBytes = target := by
    rw [Relocations.addressOf_of_lt htarget]
    simp [wordBytes]
  rw [shortenedProgram, shortenedProgram, keep_modify hlength hkept]
  refine List.ext_getElem? fun index => ?_
  simp only [List.getElem?_modify, List.getElem?_map]
  by_cases hindex : moved 0 mask place = index
  · subst hindex
    rw [getElem?_keep hlength hkept, hfetch]
    simp [Instruction.redirect, hjump, haddress]
  · simp [hindex]

/-- **Addresses can be filled in before or after instructions are dropped,** as
long as the jumps that wait for them are kept. -/
theorem Relocations.patch_shortened {relocations : Relocations} {mask : List Bool}
    {references : List (Nat × String)} {program : List Instruction}
    (hlength : mask.length = program.length)
    (hlabels : ∀ label index, relocations.labelIndex? label = some index → index < 0x40000000)
    (hwaits : ∀ entry ∈ references, mask[entry.1]? = some true ∧
      ∃ instruction, program[entry.1]? = some instruction ∧ instruction.operation = .jump) :
    (relocations.mapIndices (moved 0 mask)).patch
        (references.map fun (index, label) => (moved 0 mask index, label))
        (shortenedProgram mask program) =
      (shortenedProgram mask (relocations.patch references program).1,
        (relocations.patch references program).2) := by
  induction references generalizing program with
  | nil => rfl
  | cons reference rest ih =>
      obtain ⟨place, label⟩ := reference
      obtain ⟨hkept, instruction, hfetch, hjump⟩ := hwaits (place, label) List.mem_cons_self
      rw [List.map_cons, patch, patch, labelIndex?_mapIndices]
      cases hlabel : relocations.labelIndex? label with
      | none => rfl
      | some target =>
          simp only [Option.map_some]
          rw [modify_shortenedProgram hlength hkept hfetch hjump (hlabels label target hlabel)]
          refine ih (by rw [hlength, List.length_modify]) fun entry hentry => ?_
          obtain ⟨hkept', other, hother, hjump'⟩ :=
            hwaits entry (List.mem_cons_of_mem _ hentry)
          refine ⟨hkept', ?_⟩
          rw [List.getElem?_modify, hother]
          by_cases hplace : place = entry.1 <;> simp [hplace, hjump']

/-- Filling in addresses changes no operation. -/
theorem Relocations.operation_patch (relocations : Relocations) (references : List (Nat × String))
    (program : List Instruction) :
    (relocations.patch references program).1.map Instruction.operation =
      program.map Instruction.operation := by
  induction references generalizing program with
  | nil => rfl
  | cons reference rest ih =>
      obtain ⟨place, label⟩ := reference
      rw [patch]
      split
      · rw [ih]
        refine List.ext_getElem? fun index => ?_
        rw [List.getElem?_map, List.getElem?_map, List.getElem?_modify]
        cases program[index]? with
        | none => rfl
        | some instruction => by_cases hplace : place = index <;> simp [hplace]
      · rfl

/-! ## The program of some atoms -/

/-- A jump waits where a jump has been written. -/
theorem fetch_of_mem_referencesFrom {atoms : List Atom} {entry : Nat × String}
    (before after : List Instruction) (cellOf goal : String → Nat)
    (h : entry ∈ referencesFrom before.length atoms) :
    ∃ instruction,
      (before ++ (atoms.flatMap (Atom.code cellOf goal) ++ after))[entry.1]? = some instruction ∧
        instruction.operation = .jump := by
  induction atoms generalizing before with
  | nil => cases h
  | cons atom atoms ih =>
      rw [List.flatMap_cons, List.append_assoc]
      rw [referencesFrom, List.mem_append] at h
      rcases h with h | h
      · have hreference := Option.mem_toList.mp h
        have hbound := Atom.reference?_lt hreference
        rw [List.getElem?_append_right hbound.1,
          List.getElem?_append_left (by rw [Atom.length_code]; omega)]
        cases atom with
        | test left right comparison target =>
            simp only [Atom.reference?] at hreference
            split at hreference
            · next hsome =>
                obtain ⟨opposite, hopposite⟩ := Option.isSome_iff_exists.mp hsome
                obtain rfl := Option.some.inj hreference
                simp [Atom.code, hopposite, Instruction.jump]
            · cases hreference
        | jump target =>
            obtain rfl := Option.some.inj hreference
            simp [Atom.code, Instruction.jump]
        | _ => cases hreference
      · have hlength : before.length + atom.words = (before ++ atom.code cellOf goal).length := by
          simp
        rw [hlength] at h
        simpa using ih (before ++ atom.code cellOf goal) h

/-- A jump goes to the place of a label. -/
theorem Atom.exists_goal_of_mem_code {atom : Atom} {cellOf goal : String → Nat}
    {instruction : Instruction} (h : instruction ∈ atom.code cellOf goal)
    (hjump : instruction.operation = .jump) :
    ∃ target, instruction.address = Relocations.addressOf (goal target) := by
  cases atom with
  | test left right comparison target =>
      cases hopposite : comparison.opposite? with
      | none => simp [code, hopposite] at h
      | some opposite =>
          simp only [code, hopposite, List.mem_cons, List.not_mem_nil, or_false] at h
          rcases h with rfl | rfl | rfl
          · cases hjump
          · cases hjump
          · exact ⟨target, rfl⟩
  | jump target =>
      simp only [code, List.mem_cons, List.not_mem_nil, or_false] at h
      rcases h with rfl | rfl
      · cases hjump
      · exact ⟨target, rfl⟩
  | move source result =>
      by_cases hzero : source = "0" <;>
        simp only [code, hzero, if_true, if_false, List.mem_cons, List.not_mem_nil,
          or_false] at h <;>
        rcases h with rfl | rfl <;> cases hjump
  | label name => cases h
  | _ =>
      simp only [code, List.mem_cons, List.not_mem_nil, or_false] at h
      rcases h with rfl | rfl | rfl <;> cases hjump

namespace Emission

/-- What is said of an emission whose jumps wait for their addresses. -/
structure Waiting (emission : Emission) : Prop where
  jumps : ∀ entry ∈ emission.relocations.references, ∃ instruction,
    emission.memory.program[entry.1]? = some instruction ∧ instruction.operation = .jump
  blank : ∀ instruction ∈ emission.memory.program,
    instruction.operation = .jump → instruction.address = 0
  labels : ∀ label index, emission.relocations.labelIndex? label = some index → index < 0x40000000

/-- What was written for a list of atoms waits for its addresses: the references are jumps, and
no jump has an address yet. -/
theorem waiting_ofAtoms {atoms : List Atom} {emission : Emission}
    (h : ofAtoms atoms = .ok emission) : emission.Waiting := by
  obtain ⟨written, hwrote, hroom, rfl⟩ := ofAtoms_eq_ok h
  have hprogram := hwrote.program (Memory.Extends.refl _)
  constructor
  · intro entry hentry
    rw [relocations_append, hwrote.references] at hentry
    rw [program_append, hprogram]
    exact fetch_of_mem_referencesFrom [] _ _ _ hentry
  · intro instruction hmem hjump
    rw [program_append, List.mem_append] at hmem
    rcases hmem with hmem | hmem
    · rw [hprogram] at hmem
      obtain ⟨atom, -, hcode⟩ := List.mem_flatMap.mp hmem
      obtain ⟨target, haddress⟩ := Atom.exists_goal_of_mem_code hcode hjump
      rw [haddress, Relocations.addressOf]
      rfl
    · obtain rfl := List.mem_singleton.mp hmem
      rfl
  · intro label index hlabel
    rw [relocations_append, hwrote.labels] at hlabel
    obtain ⟨place, -, rfl⟩ := Option.map_eq_some_iff.mp hlabel
    have hle := wordsOf_take_le atoms place
    simp only [programBytes, wordBytes] at hroom
    omega

variable {emission : Emission}

/-- A jump that waits is kept. -/
theorem Waiting.kept (h : emission.Waiting) {entry : Nat × String}
    (hentry : entry ∈ emission.relocations.references) :
    (survivors 0 emission.relocations emission.memory.program)[entry.1]? = some true := by
  obtain ⟨instruction, hfetch, hjump⟩ := h.jumps entry hentry
  have hlt := (List.getElem?_eq_some_iff.mp hfetch).1
  rw [← length_survivors 0 emission.relocations] at hlt
  cases hkept : (survivors 0 emission.relocations emission.memory.program)[entry.1] with
  | true => rw [List.getElem?_eq_getElem hlt, hkept]
  | false =>
      have htransfer := isTransfer_of_dropped
        (by rw [List.getElem?_eq_getElem hlt, hkept]) hfetch
      simp [Instruction.isTransfer, hjump] at htransfer

/-- So no load or store waits for one. -/
theorem Waiting.waitsElsewhere (h : emission.Waiting) :
    emission.relocations.WaitsElsewhere 0 emission.memory.program := by
  intro entry hentry _ instruction hfetch
  obtain ⟨jump, hjump, hoperation⟩ := h.jumps entry hentry
  obtain rfl : jump = instruction := Option.some.inj (hjump.symm.trans hfetch)
  simp [Instruction.isTransfer, hoperation]

/-- No jump is redirected before it has an address. -/
theorem Waiting.shortenedProgram_eq (h : emission.Waiting) :
    shortenedProgram (survivors 0 emission.relocations emission.memory.program)
        emission.memory.program =
      (peephole emission.memory.program emission.relocations).1 := by
  rw [shortenedProgram, peephole, ← peepholeFrom_program]
  refine (List.map_congr_left fun instruction hmem => ?_).trans (List.map_id _)
  by_cases hjump : instruction.operation = .jump
  · have hmem := (peepholeFrom_sublist _ _ _).subset hmem
    obtain ⟨operation, comparison, register, address⟩ := instruction
    obtain rfl : address = 0 := h.blank _ hmem hjump
    simp [Instruction.redirect, Relocations.addressOf]
  · rw [Instruction.redirect_of_ne hjump]
    rfl

/-- Shortening and resolution change places. -/
theorem Waiting.resolve_shorten (h : emission.Waiting) :
    emission.shorten.resolve = emission.resolve.map fun memory =>
      { memory with
        program := shortenedProgram
          (survivors 0 emission.relocations emission.memory.program) memory.program } := by
  have hpatch := Relocations.patch_shortened
    (length_survivors 0 emission.relocations emission.memory.program) h.labels
    fun entry hentry => ⟨h.kept hentry, h.jumps entry hentry⟩
  rw [h.shortenedProgram_eq, ← peepholeFrom_tables h.waitsElsewhere] at hpatch
  have hreferences : emission.relocations.references.map
      (fun (index, label) =>
        (moved 0 (survivors 0 emission.relocations emission.memory.program) index, label)) =
      (peepholeFrom 0 emission.relocations emission.memory.program).2.references := by
    rw [peepholeFrom_tables h.waitsElsewhere]
    rfl
  rw [hreferences] at hpatch
  simp only [resolve, shorten, Relocations.resolve, peephole] at hpatch ⊢
  rw [hpatch]
  cases hpatched : emission.relocations.patch emission.relocations.references
    emission.memory.program with
  | mk program error => cases error <;> rfl

end Emission

/-- **A shortened program is the whole one without the instructions that are
dropped,** and its jumps go to where their targets have moved.  Whether there is a
program at all does not depend on shortening. -/
theorem emit_shortened (atoms : List Atom) :
    emit atoms true = (emit atoms false).map fun memory =>
      { memory with program := shortenedProgram (survivorsOf atoms) memory.program } := by
  rw [emit_eq_bind, emit_eq_bind]
  cases hemission : Emission.ofAtoms atoms with
  | error error => rfl
  | ok emission =>
      have hwaiting := Emission.waiting_ofAtoms hemission
      simp only [survivorsOf, hemission]
      exact hwaiting.resolve_shorten

/-- The survivors of an emitted program: there is one answer for each instruction,
and only loads and stores are dropped. -/
theorem survivorsOf_spec {atoms : List Atom} {memory : Memory}
    (h : emit atoms false = .ok memory) :
    (survivorsOf atoms).length = memory.program.length ∧
      ∀ (place : Nat) (instruction : Instruction), (survivorsOf atoms)[place]? = some false →
        memory.program[place]? = some instruction → instruction.isTransfer = true := by
  rw [emit_eq_bind] at h
  obtain ⟨emission, hemission, h⟩ := bind_eq_ok h
  have hoperations : memory.program.map Instruction.operation =
      emission.memory.program.map Instruction.operation := by
    have hpatched := emission.relocations.operation_patch emission.relocations.references
      emission.memory.program
    simp only [Bool.false_eq_true, if_false, Emission.resolve, Relocations.resolve] at h
    split at h
    · next program hpatch =>
        obtain rfl := Except.ok.inj h
        rw [hpatch] at hpatched
        exact hpatched
    · cases h
  have hlength : memory.program.length = emission.memory.program.length := by
    simpa using congrArg List.length hoperations
  simp only [survivorsOf, hemission]
  refine ⟨by rw [length_survivors, hlength], fun place instruction hdropped hfetch => ?_⟩
  have hlt : place < emission.memory.program.length :=
    hlength ▸ (List.getElem?_eq_some_iff.mp hfetch).1
  have hother := List.getElem?_eq_getElem hlt
  have hsame := congrArg (·[place]?) hoperations
  simp only [List.getElem?_map, hfetch, hother, Option.map_some, Option.some.injEq] at hsame
  have htransfer := isTransfer_of_dropped hdropped hother
  simpa [Instruction.isTransfer, hsame] using htransfer

end AtomCompiler
