import AtomCompiler.Execution.Steps
import AtomCompiler.Execution.Store
import AtomCompiler.Memory.Basic

/-!
# Runs of the accumulator machine

The machine has an accumulator, a flag and data cells.  A comparison sets the
flag, and a jump is taken only while the flag is set.  The machine stops at
`halt`.
-/

namespace AtomCompiler

/-- The state of the machine: the index of the next instruction, the
accumulator, the flag, and the number in the cell at each address. -/
structure MachineState where
  place : Nat
  accumulator : Float
  flag : Bool
  cells : Nat → Float

namespace MachineState

/-- The state at the next instruction. -/
def advance (state : MachineState) : MachineState :=
  { state with place := state.place + 1 }

/-- The state with a number in a cell. -/
def put (state : MachineState) (address : Nat) (value : Float) : MachineState :=
  { state with cells := fun other => if other = address then value else state.cells other }

/-- The flag after a comparison; a code that is no comparison clears it. -/
def compare (state : MachineState) (instruction : Instruction) : Bool :=
  match Comparison.ofCode? instruction.comparison with
  | some comparison => comparison.holds state.accumulator (state.cells instruction.address)
  | none => false

/-- Runs an instruction. -/
def runInstruction? (convention : Convention) (state : MachineState) (instruction : Instruction) :
    Option MachineState :=
  match instruction.operation with
  | .clear => some { state.advance with accumulator := 0 }
  | .load => some { state.advance with accumulator := state.cells instruction.address }
  | .store => some (state.advance.put instruction.address state.accumulator)
  | .arithmetic operation =>
    some { state.advance with
      accumulator :=
        convention.result operation state.accumulator (state.cells instruction.address) }
  | .compare => some { state.advance with flag := state.compare instruction }
  | .jump =>
    some (if state.flag then { state with place := instruction.address / wordBytes }
      else state.advance)
  | .halt => none

/-- One step of a run. -/
def step? (convention : Convention) (program : List Instruction) (state : MachineState) :
    Option MachineState :=
  program[state.place]?.bind (state.runInstruction? convention)

/-- The machine stands before a `halt`. -/
def isHalted (program : List Instruction) (state : MachineState) : Prop :=
  ∃ instruction, program[state.place]? = some instruction ∧ instruction.operation = .halt

/-- A machine that has halted does not go on. -/
theorem step?_of_isHalted {program : List Instruction} {state : MachineState}
    (h : state.isHalted program) (convention : Convention) :
    step? convention program state = none := by
  obtain ⟨instruction, hfetch, hhalt⟩ := h
  simp [step?, hfetch, runInstruction?, hhalt]

end MachineState

/-- The number in the cell at each address when memory is loaded; there is
nothing but zero beyond the cells. -/
def Memory.initialCells (memory : Memory) (address : Nat) : Float :=
  match memory.cells[(address - programBytes) / cellBytes]? with
  | some cell => Float.ofBits cell.bits
  | none => 0

/-- The machine with memory loaded, at the first instruction. -/
def Memory.load (memory : Memory) (accumulator : Float) (flag : Bool) : MachineState :=
  ⟨0, accumulator, flag, memory.initialCells⟩

/-- The machine is started with memory loaded, and comes to a `halt` in the given
state. -/
def Memory.HaltsIn (convention : Convention) (memory : Memory) (accumulator : Float) (flag : Bool)
    (halted : MachineState) : Prop :=
  Reaches (MachineState.step? convention memory.program) (memory.load accumulator flag) halted ∧
    halted.isHalted memory.program

end AtomCompiler
