import AtomCompiler.Atom.Basic
import AtomCompiler.Text.Columns
import AtomCompiler.Text.Digits

/-!
# Instructions of the accumulator machine

An instruction fills a word of thirty-two bits: four bits of operation, four of
comparison, four of register and twenty of address, from the top down.  Until it
is encoded an instruction keeps its fields as they are; encoding drops what does
not fit.

* `Instruction.word_lt` — an encoded instruction is a word.
* `Instruction.ofWord?_word` — decoding gives the instruction back, its fields
  cut to their widths.
* `Instruction.word_of_ofWord?` — encoding what was decoded gives the word back.
-/

namespace AtomCompiler

/-- What an instruction does. -/
inductive Operation where
  | clear
  | arithmetic (operation : Arithmetic)
  | jump
  | compare
  | load
  | store
  | halt
  deriving DecidableEq, Repr

namespace Operation

/-- All operations, in the order of their codes. -/
def all : List Operation :=
  [clear, arithmetic .add, arithmetic .subtract, arithmetic .multiply, arithmetic .divide,
    jump, compare, load, store, halt]

/-- The number of an operation. -/
def code : Operation → Nat
  | clear => 0
  | arithmetic .add => 1
  | arithmetic .subtract => 2
  | arithmetic .multiply => 3
  | arithmetic .divide => 4
  | jump => 5
  | compare => 6
  | load => 7
  | store => 8
  | halt => 9

/-- The operation with the given number. -/
def ofCode? (code : Nat) : Option Operation := all[code]?

/-- The name of an operation in listings. -/
def mnemonic : Operation → String
  | clear => "CLR"
  | arithmetic .add => "ADD"
  | arithmetic .subtract => "SUB"
  | arithmetic .multiply => "MUL"
  | arithmetic .divide => "DIV"
  | jump => "JMP"
  | compare => "CMP"
  | load => "LOD"
  | store => "STO"
  | halt => "HLT"

/-- The codes of operations fit into their field. -/
theorem code_lt (operation : Operation) : operation.code < 10 := by
  rcases operation with _ | (_ | _ | _ | _) | _ | _ | _ | _ | _ <;> decide

/-- An operation is found again by its code. -/
theorem ofCode?_code (operation : Operation) : ofCode? operation.code = some operation := by
  rcases operation with _ | (_ | _ | _ | _) | _ | _ | _ | _ | _ <;> rfl

/-- Whatever is found by a code has this code. -/
theorem code_of_ofCode? {n : Nat} {operation : Operation} (h : ofCode? n = some operation) :
    operation.code = n := by
  obtain ⟨hn, -⟩ := List.getElem?_eq_some_iff.mp h
  have hn : n < 10 := hn
  have hall : ∀ m < 10, (ofCode? m).map code = some m := by decide
  have := hall n hn
  simpa [h] using this

end Operation

/-- An instruction, its fields not yet cut to their widths. -/
structure Instruction where
  operation : Operation
  comparison : Nat := 0
  register : Nat := 0
  address : Nat := 0
  deriving DecidableEq, Repr

namespace Instruction

/-- The register that a jump changes. -/
def programCounter : Nat := 1

/-- An instruction that compares the accumulator with a cell. -/
def compare (comparison : Comparison) (address : Nat) : Instruction :=
  { operation := .compare, comparison := comparison.code, address }

/-- A jump whose address is not known yet. -/
def jump : Instruction :=
  { operation := .jump, register := programCounter }

/-- An instruction with its fields cut to their widths. -/
def cut (instruction : Instruction) : Instruction :=
  { instruction with
    comparison := instruction.comparison % 0x10
    register := instruction.register % 0x10
    address := instruction.address % 0x100000 }

/-- The word of an instruction. -/
def word (instruction : Instruction) : Nat :=
  instruction.operation.code * 0x10000000 + instruction.comparison % 0x10 * 0x1000000
    + instruction.register % 0x10 * 0x100000 + instruction.address % 0x100000

/-- The instruction in a word, if there is an operation with that number. -/
def ofWord? (word : Nat) : Option Instruction :=
  (Operation.ofCode? (word / 0x10000000)).map fun operation =>
    { operation
      comparison := word / 0x1000000 % 0x10
      register := word / 0x100000 % 0x10
      address := word % 0x100000 }

/-- An instruction in a listing: the operation and, unless it needs none, the
sign of the comparison, the register and the address. -/
def describe (instruction : Instruction) : String :=
  let symbol := match instruction.operation, Comparison.ofCode? instruction.comparison with
    | .compare, some comparison => comparison.symbol
    | _, _ => ""
  let register := if instruction.register = 0 then "" else s!"r{instruction.register}"
  match instruction.operation with
  | .clear => Operation.clear.mnemonic
  | .halt => Operation.halt.mnemonic
  | operation =>
    s!"{operation.mnemonic} {Text.alignRight 2 symbol} {Text.alignRight 3 register} "
      ++ s!"@0x{Text.digits 16 5 instruction.address}"

/-- **An encoded instruction is a word** of thirty-two bits. -/
theorem word_lt (instruction : Instruction) : instruction.word < 0x100000000 := by
  have := instruction.operation.code_lt
  unfold word
  omega

/-- **Decoding undoes encoding,** up to what does not fit. -/
theorem ofWord?_word (instruction : Instruction) :
    ofWord? instruction.word = some instruction.cut := by
  have hcode : instruction.word / 0x10000000 = instruction.operation.code := by
    unfold word
    omega
  have hcomparison : instruction.word / 0x1000000 % 0x10 = instruction.comparison % 0x10 := by
    unfold word
    omega
  have hregister : instruction.word / 0x100000 % 0x10 = instruction.register % 0x10 := by
    unfold word
    omega
  have haddress : instruction.word % 0x100000 = instruction.address % 0x100000 := by
    unfold word
    omega
  rw [ofWord?, hcode, Operation.ofCode?_code, hcomparison, hregister, haddress]
  rfl

/-- **Encoding undoes decoding.** -/
theorem word_of_ofWord? {n : Nat} {instruction : Instruction} (h : ofWord? n = some instruction) :
    instruction.word = n := by
  obtain ⟨operation, hoperation, rfl⟩ := Option.map_eq_some_iff.mp h
  have := Operation.code_of_ofCode? hoperation
  simp only [word]
  omega

end Instruction

end AtomCompiler
