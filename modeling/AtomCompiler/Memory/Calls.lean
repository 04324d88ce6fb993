import AtomCompiler.Memory.Basic

/-!
# Filling memory, call by call

Memory is filled by three kinds of calls: one for an instruction, one for the cell
of a variable and one for the cell of a literal.  Each call is answered, with an
index or an address or with an error, and leaves memory in some state for the next
call; a call that fails is no reason to stop.
-/

namespace AtomCompiler

/-- A call that fills memory. -/
inductive MemoryCall where
  | push (instruction : Instruction)
  | allocateVariable (name : String)
  | allocateLiteral (text : String)
  deriving DecidableEq, Repr

/-- The cell that a call refers to, as it begins when there is none for its text
yet.  An instruction has no cell, and neither has a literal that is no number. -/
def MemoryCall.cell? : MemoryCall → Option Cell
  | push _ => none
  | allocateVariable name => some ⟨name, 0⟩
  | allocateLiteral text => (Numeral.bits? text).map (Cell.mk text)

namespace Memory

/-- The answer to a call, and the memory after it. -/
def call (memory : Memory) : MemoryCall → Except MemoryError Nat × Memory
  | .push instruction => memory.push instruction
  | .allocateVariable name => memory.allocateVariable name
  | .allocateLiteral text => memory.allocateLiteral text

/-- The memory after some calls, those that fail included. -/
def after (memory : Memory) (calls : List MemoryCall) : Memory :=
  calls.foldl (fun memory call => (memory.call call).2) memory

/-- The cells that the successful ones among some calls refer to, in order. -/
def references (memory : Memory) : List MemoryCall → List Cell
  | [] => []
  | call :: rest =>
    match memory.call call with
    | (.ok _, next) => call.cell?.toList ++ next.references rest
    | (.error _, next) => next.references rest

/-- Memory can be filled like this. -/
def Reachable (memory : Memory) : Prop :=
  ∃ calls, memory = after {} calls

@[simp] theorem after_nil (memory : Memory) : memory.after [] = memory := rfl

@[simp] theorem after_cons (memory : Memory) (call : MemoryCall) (calls : List MemoryCall) :
    memory.after (call :: calls) = (memory.call call).2.after calls := rfl

/-- Calls that are made one after another. -/
theorem after_append (memory : Memory) (calls later : List MemoryCall) :
    memory.after (calls ++ later) = (memory.after calls).after later :=
  List.foldl_append

end Memory

/-- What a call can do to memory, with the answer it gets. -/
inductive Called (memory : Memory) : MemoryCall → Except MemoryError Nat → Memory → Prop
  /-- An instruction is written behind all others. -/
  | pushed (instruction : Instruction) :
      memory.program.length < programBytes / wordBytes →
      Called memory (.push instruction) (.ok memory.program.length)
        { memory with program := memory.program ++ [instruction] }
  /-- There is no room for an instruction. -/
  | programFull (instruction : Instruction) :
      ¬memory.program.length < programBytes / wordBytes →
      Called memory (.push instruction) (.error .programExhausted) memory
  /-- A text has a cell. -/
  | found {call : MemoryCall} {cell : Cell} {slot : Nat} :
      call.cell? = some cell → memory.slot? cell.name = some slot →
      Called memory call (.ok (cellAddress slot)) memory
  /-- A text gets the next cell. -/
  | added {call : MemoryCall} {cell : Cell} :
      call.cell? = some cell → memory.slot? cell.name = none →
      cellAddress memory.cells.size ≤ maxAddress →
      Called memory call (.ok (cellAddress memory.cells.size))
        (memory.addCell cell.name cell.bits)
  /-- There is no room for a cell. -/
  | dataFull {call : MemoryCall} {cell : Cell} :
      call.cell? = some cell → memory.slot? cell.name = none →
      ¬cellAddress memory.cells.size ≤ maxAddress →
      Called memory call (.error (.dataExhausted cell.name)) memory
  /-- A literal is no number. -/
  | unreadable {text : String} :
      Numeral.bits? text = none →
      Called memory (.allocateLiteral text) (.error (.badLiteral text)) memory

/-- Allocation as a call for a cell. -/
theorem Called.of_allocate {memory next : Memory} {call : MemoryCall} {cell : Cell}
    {answer : Except MemoryError Nat} (hcell : call.cell? = some cell)
    (h : memory.allocate cell.name cell.bits = (answer, next)) : Called memory call answer next := by
  unfold Memory.allocate at h
  split at h
  · next slot hslot =>
      obtain ⟨rfl, rfl⟩ := Prod.mk.inj h
      exact .found hcell hslot
  · next hnone =>
      split at h
      · next hroom =>
          obtain ⟨rfl, rfl⟩ := Prod.mk.inj h
          exact .added hcell hnone hroom
      · next hroom =>
          obtain ⟨rfl, rfl⟩ := Prod.mk.inj h
          exact .dataFull hcell hnone hroom

/-- **A call does one of the things that calls do.** -/
theorem Called.of_call {memory next : Memory} {call : MemoryCall}
    {answer : Except MemoryError Nat} (h : memory.call call = (answer, next)) :
    Called memory call answer next := by
  cases call with
  | push instruction =>
      simp only [Memory.call, Memory.push] at h
      split at h
      · next hroom =>
          obtain ⟨rfl, rfl⟩ := Prod.mk.inj h
          exact .pushed instruction hroom
      · next hroom =>
          obtain ⟨rfl, rfl⟩ := Prod.mk.inj h
          exact .programFull instruction hroom
  | allocateVariable name =>
      have hcell : (MemoryCall.allocateVariable name).cell? = some ⟨name, 0⟩ := rfl
      exact .of_allocate hcell h
  | allocateLiteral text =>
      simp only [Memory.call, Memory.allocateLiteral] at h
      split at h
      · next bits hbits =>
          have hcell : (MemoryCall.allocateLiteral text).cell? = some ⟨text, bits⟩ := by
            simp [MemoryCall.cell?, hbits]
          exact .of_allocate hcell h
      · next hbits =>
          obtain ⟨rfl, rfl⟩ := Prod.mk.inj h
          exact .unreadable hbits

end AtomCompiler
