import AtomCompiler.Machine.Peephole

/-!
# From atoms to instructions

The atoms are written one after another.  Each use of a text gives it a data
cell if it has none yet, left operand before right operand before result.  A
test is written as the opposite comparison, so that the machine jumps when the
test fails; a test that cannot fail is not written at all, but its operands get
their cells.  A jump is a comparison that always holds, with the cell of `0`,
and then a conditional jump.  After the last atom the machine halts.

Then, if asked, redundant loads and stores are dropped, and last the jumps get
their addresses.
-/

namespace AtomCompiler

/-- What can go wrong when atoms are written as instructions. -/
inductive EmitError where
  | badMemory (error : MemoryError)
  | badLabels (error : LabelError)
  deriving DecidableEq, Repr

/-- The wording of an emission error. -/
def EmitError.message : EmitError → String
  | badMemory error => error.message
  | badLabels error => error.message

/-- What has been written so far. -/
structure Emission where
  memory : Memory := {}
  relocations : Relocations := {}

namespace Emission

/-- A change of memory as a part of emission. -/
def change {α : Type} (emission : Emission) (step : Memory → Except MemoryError α × Memory) :
    Except EmitError (α × Emission) :=
  match emission with
  | ⟨memory, relocations⟩ =>
    match step memory with
    | (.ok value, memory) => .ok (value, ⟨memory, relocations⟩)
    | (.error error, _) => .error (.badMemory error)

/-- The cell of an operand. -/
def operand (emission : Emission) (text : String) : Except EmitError (Nat × Emission) :=
  emission.change fun memory => memory.allocateOperand text

/-- The cell of a variable. -/
def result (emission : Emission) (name : String) : Except EmitError (Nat × Emission) :=
  emission.change fun memory => memory.allocateVariable name

/-- The cell of the number zero. -/
def zero (emission : Emission) : Except EmitError (Nat × Emission) :=
  emission.change fun memory => memory.allocateLiteral "0"

/-- Writes an instruction, and tells its index. -/
def push (emission : Emission) (instruction : Instruction) : Except EmitError (Nat × Emission) :=
  emission.change fun memory => memory.push instruction

/-- Writes an operation on a cell. -/
def write (emission : Emission) (operation : Operation) (address : Nat) :
    Except EmitError Emission := do
  let (_, emission) ← emission.push { operation, address }
  return emission

/-- Writes a comparison with a cell and a jump that waits for its label. -/
def jumpIf (emission : Emission) (comparison : Comparison) (address : Nat) (label : String) :
    Except EmitError Emission := do
  let (_, emission) ← emission.push (.compare comparison address)
  let (index, emission) ← emission.push .jump
  return { emission with relocations := emission.relocations.refer index label }

/-- Places a label before the next instruction. -/
def label (emission : Emission) (name : String) : Except EmitError Emission :=
  match emission.relocations.defineNew name emission.memory.program.length with
  | .ok relocations => .ok { emission with relocations }
  | .error error => .error (.badLabels error)

/-- Writes an atom. -/
def atom (emission : Emission) : Atom → Except EmitError Emission
  | .arithmetic operation left right result => do
    let (left, emission) ← emission.operand left
    let (right, emission) ← emission.operand right
    let (result, emission) ← emission.result result
    let emission ← emission.write .load left
    let emission ← emission.write (.arithmetic operation) right
    emission.write .store result
  | .negate source result => do
    let (noughtCell, emission) ← emission.zero
    let (source, emission) ← emission.operand source
    let (result, emission) ← emission.result result
    let emission ← emission.write .load noughtCell
    let emission ← emission.write (.arithmetic .subtract) source
    emission.write .store result
  | .move source result => do
    let emission ←
      if source = "0" then emission.write .clear 0
      else do
        let (source, emission) ← emission.operand source
        emission.write .load source
    let (result, emission) ← emission.result result
    emission.write .store result
  | .test left right comparison target => do
    let (left, emission) ← emission.operand left
    let (right, emission) ← emission.operand right
    match comparison.opposite? with
    | some opposite =>
      let emission ← emission.write .load left
      emission.jumpIf opposite right target
    | none => return emission
  | .jump target => do
    let (noughtCell, emission) ← emission.zero
    emission.jumpIf .always noughtCell target
  | .label name => emission.label name

/-- Writes a list of atoms. -/
def atoms (emission : Emission) (list : List Atom) : Except EmitError Emission :=
  list.foldlM atom emission

/-- The memory with the addresses of all jumps filled in. -/
def resolve (emission : Emission) : Except EmitError Memory :=
  match emission.relocations.resolve emission.memory.program with
  | (program, none) => .ok { emission.memory with program }
  | (_, some error) => .error (.badLabels error)

/-- The emission without redundant loads and stores. -/
def shorten (emission : Emission) : Emission :=
  let (program, relocations) := peephole emission.memory.program emission.relocations
  { memory := { emission.memory with program }, relocations }

end Emission

/-- The memory that runs a list of atoms, with or without redundant loads and
stores. -/
def emit (atoms : List Atom) (shortened : Bool) : Except EmitError Memory := do
  let emission ← Emission.atoms {} atoms
  let emission ← emission.write .halt 0
  (if shortened then emission.shorten else emission).resolve

end AtomCompiler
