import AtomCompiler.Proofs.Allocation
import AtomCompiler.Proofs.Shortening

/-!
# Emission fills memory by calls

Emission allocates a cell here and writes an instruction there, changes the addresses of
jumps when all labels are known, and may drop some instructions on the way.  The memory
that comes out can be filled by calls all the same, and what holds of all memory that
calls have filled holds of it.

* `Memory.after_allocations` — cells do not depend on instructions;
* `Memory.Reachable.withProgram` — so the program of such a memory can be any that fits;
* `Emission.calls_atoms` — emission makes calls until only addresses are missing;
* `reachable_of_emit` — emitted memory can be filled by calls.
-/

namespace AtomCompiler

/-! ## Cells and instructions -/

/-- Whether a call is for a cell. -/
def MemoryCall.isAllocation : MemoryCall → Bool
  | push _ => false
  | allocateVariable _ => true
  | allocateLiteral _ => true

namespace Memory

variable {memory : Memory}

/-- Allocating a cell does not look at the program. -/
theorem allocate_withProgram (memory : Memory) (program : List Instruction) (name : String)
    (bits : UInt64) :
    ({ memory with program }.allocate name bits).2 =
      { (memory.allocate name bits).2 with program } := by
  have hslot : { memory with program }.slot? name = memory.slot? name := rfl
  unfold allocate
  rw [hslot]
  split
  · rfl
  · split <;> rfl

/-- Cells do not depend on the program. -/
theorem call_withProgram (memory : Memory) (program : List Instruction) {call : MemoryCall}
    (h : call.isAllocation = true) :
    ({ memory with program }.call call).2 = { (memory.call call).2 with program } := by
  cases call with
  | push instruction => cases h
  | allocateVariable name => exact memory.allocate_withProgram program name 0
  | allocateLiteral text =>
      simp only [call, allocateLiteral]
      split
      · next bits _ => exact memory.allocate_withProgram program text bits
      · rfl

/-- The cells after some calls are there without the instructions, too. -/
theorem after_allocations (memory : Memory) (program : List Instruction)
    (calls : List MemoryCall) :
    { memory with program }.after (calls.filter MemoryCall.isAllocation) =
      { memory.after calls with program } := by
  induction calls generalizing memory with
  | nil => rfl
  | cons call calls ih =>
      cases hkind : call.isAllocation with
      | true =>
          rw [List.filter_cons_of_pos hkind, after_cons, after_cons,
            memory.call_withProgram program hkind, ih]
      | false =>
          rw [List.filter_cons_of_neg (by simp [hkind]), after_cons, ← ih]
          congr 1
          generalize hcall : memory.call call = outcome
          obtain ⟨answer, next⟩ := outcome
          cases Called.of_call hcall with
          | @added _ cell hcell => cases call <;> simp_all [MemoryCall.isAllocation, MemoryCall.cell?]
          | _ => rfl

/-- Instructions are written one after another as long as there is room. -/
theorem after_pushes {program : List Instruction}
    (h : memory.program.length + program.length ≤ maxWords) :
    memory.after (program.map MemoryCall.push) =
      { memory with program := memory.program ++ program } := by
  induction program generalizing memory with
  | nil => simp
  | cons instruction program ih =>
      rw [List.length_cons] at h
      have hroom : memory.program.length < programBytes / wordBytes := by
        simp only [maxWords] at h
        omega
      rw [List.map_cons, after_cons, call, push, if_pos hroom, ih]
      · simp
      · simp only [List.length_append, List.length_singleton]
        omega

/-- Memory can be filled with any program that fits. -/
theorem Reachable.withProgram (h : memory.Reachable) {program : List Instruction}
    (hlength : program.length ≤ maxWords) : { memory with program }.Reachable := by
  obtain ⟨calls, rfl⟩ := h
  have hcells : Memory.after {} (calls.filter MemoryCall.isAllocation) =
      { Memory.after {} calls with program := [] } :=
    after_allocations {} [] calls
  refine ⟨calls.filter MemoryCall.isAllocation ++ program.map .push, ?_⟩
  rw [after_append, hcells, after_pushes (by simpa using hlength)]
  rfl

end Memory

/-! ## Emission -/

namespace Emission

variable {emission next : Emission} {address : Nat}

/-- What is done to memory can be done by calls. -/
def Calls (emission next : Emission) : Prop :=
  ∃ calls, next.memory = emission.memory.after calls

theorem Calls.refl (emission : Emission) : emission.Calls emission :=
  ⟨[], rfl⟩

theorem Calls.trans {last : Emission} (h₁ : emission.Calls next) (h₂ : next.Calls last) :
    emission.Calls last := by
  obtain ⟨calls, hcalls⟩ := h₁
  obtain ⟨later, hlater⟩ := h₂
  exact ⟨calls ++ later, by rw [hlater, hcalls, Memory.after_append]⟩

/-- A change of memory by a call is one call. -/
theorem calls_change (call : MemoryCall)
    (h : emission.change (fun memory => memory.call call) = .ok (address, next)) :
    emission.Calls next := by
  obtain ⟨hstep, -⟩ := change_eq_ok h
  exact ⟨[call], by rw [Memory.after_cons, hstep]; rfl⟩

/-- An operand is allocated by one call. -/
theorem calls_operand {text : String} (h : emission.operand text = .ok (address, next)) :
    emission.Calls next := by
  simp only [operand, Memory.allocateOperand] at h
  by_cases hliteral : isLiteral text = true
  · simp only [hliteral, if_true] at h
    exact calls_change (.allocateLiteral text) h
  · simp only [hliteral, Bool.false_eq_true, if_false] at h
    exact calls_change (.allocateVariable text) h

/-- A result is allocated by one call. -/
theorem calls_result {name : String} (h : emission.result name = .ok (address, next)) :
    emission.Calls next :=
  calls_change (.allocateVariable name) h

/-- The zero of a negation or a jump is allocated by one call. -/
theorem calls_zero (h : emission.zero = .ok (address, next)) : emission.Calls next :=
  calls_change (.allocateLiteral "0") h

/-- Pushing an instruction calls for no cell. -/
theorem calls_push {instruction : Instruction}
    (h : emission.push instruction = .ok (address, next)) : emission.Calls next :=
  calls_change (.push instruction) h

/-- Nor does writing one. -/
theorem calls_write {operation : Operation} (h : emission.write operation address = .ok next) :
    emission.Calls next := by
  obtain ⟨⟨index, after⟩, hpush, h⟩ := bind_eq_ok h
  obtain rfl := Except.ok.inj h
  exact calls_push hpush

/-- Nor does a conditional jump. -/
theorem calls_jumpIf {comparison : Comparison} {label : String}
    (h : emission.jumpIf comparison address label = .ok next) : emission.Calls next := by
  obtain ⟨⟨index, middle⟩, hcompare, h⟩ := bind_eq_ok h
  obtain ⟨⟨index', after⟩, hjump, h⟩ := bind_eq_ok h
  obtain rfl := Except.ok.inj h
  have hcalls : emission.Calls after := (calls_push hcompare).trans (calls_push hjump)
  exact hcalls

/-- **Emission makes calls at an atom.** -/
theorem calls_atom {atom : Atom} (h : emission.atom atom = .ok next) : emission.Calls next := by
  cases atom with
  | arithmetic operation left right result =>
      obtain ⟨⟨leftCell, e₁⟩, hleft, h⟩ := bind_eq_ok h
      obtain ⟨⟨rightCell, e₂⟩, hright, h⟩ := bind_eq_ok h
      obtain ⟨⟨resultCell, e₃⟩, hresult, h⟩ := bind_eq_ok h
      obtain ⟨e₄, hload, h⟩ := bind_eq_ok h
      obtain ⟨e₅, hoperation, h⟩ := bind_eq_ok h
      exact (calls_operand hleft).trans ((calls_operand hright).trans ((calls_result hresult).trans
        ((calls_write hload).trans ((calls_write hoperation).trans (calls_write h)))))
  | negate source result =>
      obtain ⟨⟨zeroCell, e₁⟩, hzero, h⟩ := bind_eq_ok h
      obtain ⟨⟨sourceCell, e₂⟩, hsource, h⟩ := bind_eq_ok h
      obtain ⟨⟨resultCell, e₃⟩, hresult, h⟩ := bind_eq_ok h
      obtain ⟨e₄, hload, h⟩ := bind_eq_ok h
      obtain ⟨e₅, hoperation, h⟩ := bind_eq_ok h
      exact (calls_zero hzero).trans ((calls_operand hsource).trans ((calls_result hresult).trans
        ((calls_write hload).trans ((calls_write hoperation).trans (calls_write h)))))
  | move source result =>
      simp only [Emission.atom] at h
      split at h
      · obtain ⟨e₁, hclear, h⟩ := bind_eq_ok h
        obtain ⟨⟨resultCell, e₂⟩, hresult, h⟩ := bind_eq_ok h
        exact (calls_write hclear).trans ((calls_result hresult).trans (calls_write h))
      · obtain ⟨⟨sourceCell, e₁⟩, hsource, h⟩ := bind_eq_ok h
        obtain ⟨e₂, hload, h⟩ := bind_eq_ok h
        obtain ⟨⟨resultCell, e₃⟩, hresult, h⟩ := bind_eq_ok h
        exact (calls_operand hsource).trans ((calls_write hload).trans
          ((calls_result hresult).trans (calls_write h)))
  | test left right comparison target =>
      obtain ⟨⟨leftCell, e₁⟩, hleft, h⟩ := bind_eq_ok h
      obtain ⟨⟨rightCell, e₂⟩, hright, h⟩ := bind_eq_ok h
      have hoperands := (calls_operand hleft).trans (calls_operand hright)
      dsimp only at h
      split at h
      · obtain ⟨e₃, hload, h⟩ := bind_eq_ok h
        exact hoperands.trans ((calls_write hload).trans (calls_jumpIf h))
      · obtain rfl := Except.ok.inj h
        exact hoperands
  | jump target =>
      obtain ⟨⟨zeroCell, e₁⟩, hzero, h⟩ := bind_eq_ok h
      exact (calls_zero hzero).trans (calls_jumpIf h)
  | label name =>
      simp only [Emission.atom, label] at h
      split at h
      · obtain rfl := Except.ok.inj h
        exact ⟨[], rfl⟩
      · cases h

/-- **A list of atoms fills memory by calls alone.** -/
theorem calls_atoms {atoms : List Atom} (h : emission.atoms atoms = .ok next) :
    emission.Calls next := by
  induction atoms generalizing emission with
  | nil =>
      obtain rfl := Except.ok.inj h
      exact .refl emission
  | cons atom atoms ih =>
      rw [Emission.atoms, List.foldlM_cons] at h
      obtain ⟨middle, hmiddle, h⟩ := bind_eq_ok h
      exact (calls_atom hmiddle).trans (ih h)

end Emission

/-- What is kept is no longer than the whole. -/
theorem length_keep_le (mask : List Bool) (program : List Instruction) :
    (keep mask program).length ≤ program.length := by
  fun_induction keep mask program with
  | case1 mask instruction program ih => simpa using ih
  | case2 mask instruction program ih => exact Nat.le_succ_of_le ih
  | case3 => exact Nat.zero_le _

/-- **Emitted memory can be filled by calls,** those for its cells first and then those
for its instructions as they are in the end. -/
theorem reachable_of_emit {atoms : List Atom} {shortened : Bool} {memory : Memory}
    (h : emit atoms shortened = .ok memory) : memory.Reachable := by
  have hwhole : ∀ whole, emit atoms false = .ok whole → whole.Reachable := by
    intro whole h
    rw [emit_eq_bind] at h
    obtain ⟨emission, hemission, h⟩ := bind_eq_ok h
    obtain ⟨before, hatoms, hhalt⟩ := bind_eq_ok hemission
    obtain ⟨calls, hcalls⟩ := (Emission.calls_atoms hatoms).trans (Emission.calls_write hhalt)
    have hreachable : emission.memory.Reachable := ⟨calls, hcalls⟩
    have hlength := (emitted_of_emit (by rw [emit_eq_bind, hemission]; exact h)).length_le
    simp only [Bool.false_eq_true, if_false, Emission.resolve] at h
    split at h
    · obtain rfl := Except.ok.inj h
      exact hreachable.withProgram hlength
    · cases h
  cases shortened with
  | false => exact hwhole memory h
  | true =>
      rw [emit_shortened] at h
      obtain ⟨whole, hemit, rfl⟩ := map_eq_ok h
      refine (hwhole whole hemit).withProgram ?_
      rw [shortenedProgram, List.length_map]
      exact Nat.le_trans (length_keep_le _ _) (hwhole whole hemit).indexed.words

end AtomCompiler
