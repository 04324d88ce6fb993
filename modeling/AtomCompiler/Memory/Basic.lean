import AtomCompiler.Machine.Instruction
import Std.Data.TreeMap

/-!
# Memory of the accumulator machine

Addresses count bytes.  The first 512 bytes hold the program, one instruction to
a word; the data cells follow, eight bytes each.  The first use of a variable or
of a literal gives it a cell, and every later use finds the same cell.  A
literal is known by its text, so `1` and `1.0` have cells of their own.

A cell holds the bits of its initial value: zero for a variable, the literal's
number for a literal.

Every change gives its result, which may be an error, together with the memory
after it.
-/

namespace AtomCompiler

/-- The size of an instruction word in bytes. -/
def wordBytes : Nat := 4

/-- The size of a data cell in bytes. -/
def cellBytes : Nat := 8

/-- The size of the program region in bytes; the first data cell comes right
after it. -/
def programBytes : Nat := 512

/-- The largest address that fits into an instruction. -/
def maxAddress : Nat := 0xfffff

/-- The address of the data cell in the given slot. -/
def cellAddress (slot : Nat) : Nat := programBytes + cellBytes * slot

/-- What can go wrong when memory is filled. -/
inductive MemoryError where
  | programExhausted
  | dataExhausted (name : String)
  | badLiteral (text : String)
  deriving DecidableEq, Repr

/-- The wording of a memory error. -/
def MemoryError.message : MemoryError → String
  | programExhausted =>
    s!"Out of program memory, capacity is {programBytes / wordBytes} instructions"
  | dataExhausted name => s!"Out of data memory while allocating `{name}`"
  | badLiteral text => s!"Bad numeric literal `{text}`"

/-- A data cell: the text it belongs to, and the bits of its initial value. -/
structure Cell where
  name : String
  bits : UInt64
  deriving DecidableEq, Repr

/-- The contents of memory. -/
structure Memory where
  /-- The instructions, in order. -/
  program : List Instruction := []
  /-- The slot of each text that has a cell. -/
  slots : Std.TreeMap String Nat := {}
  /-- The data cells, by slot. -/
  cells : Array Cell := #[]

namespace Memory

/-- The slot of a text, if it has a cell. -/
def slot? (memory : Memory) (name : String) : Option Nat :=
  memory.slots[name]?

/-- Appends an instruction, and tells its index. -/
def push (memory : Memory) (instruction : Instruction) : Except MemoryError Nat × Memory :=
  if memory.program.length < programBytes / wordBytes then
    (.ok memory.program.length, { memory with program := memory.program ++ [instruction] })
  else (.error .programExhausted, memory)

/-- Appends a cell. -/
def addCell (memory : Memory) (name : String) (initial : UInt64) : Memory :=
  { memory with
    slots := memory.slots.insert name memory.cells.size
    cells := memory.cells.push ⟨name, initial⟩ }

/-- The address of a text's cell.  A text without a cell gets the next one, with
the given initial value, unless its address would not fit. -/
def allocate (memory : Memory) (name : String) (initial : UInt64) :
    Except MemoryError Nat × Memory :=
  match memory.slot? name with
  | some slot => (.ok (cellAddress slot), memory)
  | none =>
    if cellAddress memory.cells.size ≤ maxAddress then
      (.ok (cellAddress memory.cells.size), memory.addCell name initial)
    else (.error (.dataExhausted name), memory)

/-- The address of a variable's cell; the variable begins as zero. -/
def allocateVariable (memory : Memory) (name : String) : Except MemoryError Nat × Memory :=
  memory.allocate name 0

/-- The address of a literal's cell. -/
def allocateLiteral (memory : Memory) (text : String) : Except MemoryError Nat × Memory :=
  match Numeral.bits? text with
  | some bits => memory.allocate text bits
  | none => (.error (.badLiteral text), memory)

/-- The address of an operand's cell. -/
def allocateOperand (memory : Memory) (operand : String) : Except MemoryError Nat × Memory :=
  if isLiteral operand then memory.allocateLiteral operand else memory.allocateVariable operand

end Memory

end AtomCompiler
