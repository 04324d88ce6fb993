import AtomCompiler.Memory.Basic
import AtomCompiler.Number.Shortest

/-!
# Images and listings of memory

The image of memory is what the machine loads: the program's words, zeros up to
the end of the program region, and the data cells, all with the most significant
byte first.  A cell whose value is a whole number of thirty-two bits holds that
number in its upper half; any other cell holds the bits of its double.

The listing shows the same for people: a line for each instruction and one for
each cell.
-/

namespace AtomCompiler

/-- A number in the given count of bytes, the most significant first. -/
def bigEndian : Nat → Nat → List UInt8
  | 0, _ => []
  | width + 1, n => bigEndian width (n / 256) ++ [UInt8.ofNat (n % 256)]

/-- A number takes up as many bytes as its width says. -/
@[simp] theorem length_bigEndian (width n : Nat) : (bigEndian width n).length = width := by
  induction width generalizing n with
  | zero => rfl
  | succ width ih => simp [bigEndian, ih]

/-- The eight bytes of a cell's value, as one number.  A negative whole number
is in two's complement. -/
def cellWord (bits : UInt64) : Nat :=
  match (Binary64.ofBits bits).integer? with
  | some n =>
    if -0x80000000 ≤ n ∧ n < 0x80000000 then (n % 0x100000000).toNat * 0x100000000
    else bits.toNat
  | none => bits.toNat

namespace Memory

/-- The bytes of the program region. -/
def programImage (memory : Memory) : List UInt8 :=
  let words := memory.program.flatMap fun instruction => bigEndian wordBytes instruction.word
  words ++ List.replicate (programBytes - words.length) 0

/-- The bytes of the data cells. -/
def dataImage (memory : Memory) : List UInt8 :=
  memory.cells.toList.flatMap fun cell => bigEndian cellBytes (cellWord cell.bits)

/-- The bytes that the machine loads. -/
def image (memory : Memory) : List UInt8 :=
  memory.programImage ++ memory.dataImage

/-- The line of an instruction in a listing: its address, its bits and its text. -/
def programLine (index : Nat) (instruction : Instruction) : String :=
  s!"{Text.digits 16 4 (wordBytes * index)}: {Text.digits 2 32 instruction.word}  "
    ++ s!"{instruction.describe}\n"

/-- The line of a cell in a listing: its address, its text and its initial
value. -/
def cellLine (slot : Nat) (cell : Cell) : String :=
  s!"{Text.digits 16 4 (cellAddress slot)}: {Text.alignLeft 16 cell.name} "
    ++ s!"{(Binary64.ofBits cell.bits).describe}\n"

/-- The program and the data for people to read. -/
def listing (memory : Memory) : String :=
  let program := memory.program.zipIdx.map fun (instruction, index) => programLine index instruction
  let data := memory.cells.toList.zipIdx.map fun (cell, slot) => cellLine slot cell
  String.join (program ++ data)

end Memory

end AtomCompiler
