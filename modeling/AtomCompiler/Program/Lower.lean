import AtomCompiler.Program.Label
import AtomCompiler.Program.Statement

/-!
# From programs to atoms

Lowering lays a statement out as a list of atoms.  The layout depends on the
place where the list begins, because labels are numbered by place.

* a branch tests its condition and jumps over its body, or to the other branch,
  when it fails;
* a loop begins with a label and its test, and its body ends with a jump back to
  that label;
* the step of a `for` loop stands after the body.

A statement takes up `Statement.size` atoms, wherever it is placed.
-/

namespace AtomCompiler

/-- The atom of an assignment. -/
def Assignment.lower (assignment : Assignment) : Atom :=
  let target := assignment.target
  match assignment.update with
  | .increment => .arithmetic .add target "1" target
  | .decrement => .arithmetic .subtract target "1" target
  | .set (.factor factor) => .move factor.operand target
  | .set (.negated name) => .negate name target
  | .set (.arithmetic operation left right) =>
    .arithmetic operation left.operand right.operand target

/-- The test of a condition, which jumps when the condition fails. -/
def Condition.lower (condition : Condition) (target : String) : Atom :=
  .test condition.left.operand condition.right.operand condition.comparison target

namespace Statement

/-- The number of atoms of a statement. -/
def size : Statement → Nat
  | skip => 0
  | seq first rest => first.size + rest.size
  | assign _ => 1
  | ifThen _ body => body.size + 2
  | ifElse _ body other => body.size + other.size + 4
  | whileLoop _ body => body.size + 4
  | forLoop _ _ _ body => body.size + 6

/-- The atoms of a statement that is placed after `place` atoms. -/
def lower (place : Nat) : Statement → List Atom
  | skip => []
  | seq first rest => first.lower place ++ rest.lower (place + first.size)
  | assign assignment => [assignment.lower]
  | ifThen condition body =>
    let after := LabelBase.afterIf.label place
    condition.lower after :: body.lower (place + 1) ++ [.label after]
  | ifElse condition body other =>
    let after := LabelBase.afterIf.label place
    let elsePlace := place + body.size + 2
    let beforeElse := LabelBase.beforeElse.label elsePlace
    condition.lower beforeElse :: body.lower (place + 1)
      ++ .jump after :: .label beforeElse :: other.lower (elsePlace + 1) ++ [.label after]
  | whileLoop condition body =>
    let before := LabelBase.beforeWhile.label place
    let after := LabelBase.afterWhile.label place
    .label before :: condition.lower after :: body.lower (place + 2)
      ++ [.jump before, .label after]
  | forLoop init condition step body =>
    let before := LabelBase.beforeFor.label (place + 1)
    let after := LabelBase.afterFor.label (place + 1)
    init.lower :: .label before :: condition.lower after :: body.lower (place + 3)
      ++ [step.lower, .jump before, .label after]

/-- The atoms of a whole program. -/
def atoms (program : Statement) : List Atom :=
  program.lower 0

end Statement

end AtomCompiler
