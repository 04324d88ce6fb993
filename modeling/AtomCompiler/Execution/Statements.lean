import AtomCompiler.Execution.Steps
import AtomCompiler.Execution.Store
import AtomCompiler.Program.Statement

/-!
# Runs of statements

The meaning of a program, given by the structure of its statements, in two ways.
`Executes` relates the store before a statement to the store after it; a
statement that does not end is related to nothing.  `StatementState.step?` runs
the statements that are still to do one after another, so that a statement that
does not end has a run that goes on forever.
-/

namespace AtomCompiler

/-- The value of a factor. -/
def Factor.value (convention : Convention) (store : Store) : Factor → Float
  | identifier name => store name
  | literal text => convention.literal text
  | negativeLiteral text => convention.literal ("-" ++ text)

/-- The value of an expression. -/
def Expression.value (convention : Convention) (store : Store) : Expression → Float
  | factor single => single.value convention store
  | negated name => convention.negate (store name)
  | arithmetic operation left right =>
    convention.result operation (left.value convention store) (right.value convention store)

/-- The store after an assignment. -/
def Assignment.run (convention : Convention) (assignment : Assignment) (store : Store) : Store :=
  let target := assignment.target
  match assignment.update with
  | .increment => store.set target (store target + 1)
  | .decrement => store.set target (store target - 1)
  | .set value => store.set target (value.value convention store)

/-- Whether a condition holds. -/
def Condition.holds (convention : Convention) (condition : Condition) (store : Store) : Bool :=
  condition.comparison.holds (condition.left.value convention store)
    (condition.right.value convention store)

/-- A statement leads from one store to another. -/
inductive Executes (convention : Convention) : Statement → Store → Store → Prop
  | skip (store : Store) : Executes convention .skip store store
  | seq {first rest : Statement} {start middle finish : Store} :
      Executes convention first start middle → Executes convention rest middle finish →
      Executes convention (.seq first rest) start finish
  | assign (assignment : Assignment) (store : Store) :
      Executes convention (.assign assignment) store (assignment.run convention store)
  | ifThenTrue {condition : Condition} {body : Statement} {start finish : Store} :
      condition.holds convention start = true → Executes convention body start finish →
      Executes convention (.ifThen condition body) start finish
  | ifThenFalse {condition : Condition} {body : Statement} {start : Store} :
      condition.holds convention start = false →
      Executes convention (.ifThen condition body) start start
  | ifElseTrue {condition : Condition} {body other : Statement} {start finish : Store} :
      condition.holds convention start = true → Executes convention body start finish →
      Executes convention (.ifElse condition body other) start finish
  | ifElseFalse {condition : Condition} {body other : Statement} {start finish : Store} :
      condition.holds convention start = false → Executes convention other start finish →
      Executes convention (.ifElse condition body other) start finish
  | whileTrue {condition : Condition} {body : Statement} {start middle finish : Store} :
      condition.holds convention start = true → Executes convention body start middle →
      Executes convention (.whileLoop condition body) middle finish →
      Executes convention (.whileLoop condition body) start finish
  | whileFalse {condition : Condition} {body : Statement} {start : Store} :
      condition.holds convention start = false →
      Executes convention (.whileLoop condition body) start start
  | forLoop {init : Assignment} {condition : Condition} {step : Assignment} {body : Statement}
      {start finish : Store} :
      Executes convention (.whileLoop condition (.seq body (.assign step)))
        (init.run convention start) finish →
      Executes convention (.forLoop init condition step body) start finish

/-- The statements that are still to be run, first to last, and the store before
them. -/
structure StatementState where
  todo : List Statement
  store : Store

/-- One step of a run: it ends the first statement, or takes it apart. -/
def StatementState.step? (convention : Convention) : StatementState → Option StatementState
  | ⟨[], _⟩ => none
  | ⟨.skip :: todo, store⟩ => some ⟨todo, store⟩
  | ⟨.seq first rest :: todo, store⟩ => some ⟨first :: rest :: todo, store⟩
  | ⟨.assign assignment :: todo, store⟩ => some ⟨todo, assignment.run convention store⟩
  | ⟨.ifThen condition body :: todo, store⟩ =>
    some ⟨if condition.holds convention store then body :: todo else todo, store⟩
  | ⟨.ifElse condition body other :: todo, store⟩ =>
    some ⟨(if condition.holds convention store then body else other) :: todo, store⟩
  | ⟨.whileLoop condition body :: todo, store⟩ =>
    some ⟨if condition.holds convention store then body :: .whileLoop condition body :: todo
      else todo, store⟩
  | ⟨.forLoop init condition step body :: todo, store⟩ =>
    some ⟨.whileLoop condition (.seq body (.assign step)) :: todo, init.run convention store⟩

/-- A statement that is run from a store never ends. -/
def Diverges (convention : Convention) (statement : Statement) (start : Store) : Prop :=
  RunsForever (StatementState.step? convention) ⟨[statement], start⟩

/-- **A statement ends in one store.** -/
theorem Executes.unique {convention : Convention} {statement : Statement}
    {start finish₁ finish₂ : Store} (h₁ : Executes convention statement start finish₁)
    (h₂ : Executes convention statement start finish₂) : finish₁ = finish₂ := by
  induction h₁ generalizing finish₂ with
  | skip store =>
      cases h₂
      rfl
  | seq _ _ ihFirst ihRest =>
      cases h₂ with
      | seq hfirst hrest =>
          obtain rfl := ihFirst hfirst
          exact ihRest hrest
  | assign assignment store =>
      cases h₂
      rfl
  | ifThenTrue hholds _ ih =>
      cases h₂ with
      | ifThenTrue _ hbody => exact ih hbody
      | ifThenFalse hfails => simp [hholds] at hfails
  | ifThenFalse hfails =>
      cases h₂ with
      | ifThenTrue hholds _ => simp [hfails] at hholds
      | ifThenFalse _ => rfl
  | ifElseTrue hholds _ ih =>
      cases h₂ with
      | ifElseTrue _ hbody => exact ih hbody
      | ifElseFalse hfails _ => simp [hholds] at hfails
  | ifElseFalse hfails _ ih =>
      cases h₂ with
      | ifElseTrue hholds _ => simp [hfails] at hholds
      | ifElseFalse _ hother => exact ih hother
  | whileTrue hholds _ _ ihBody ihLoop =>
      cases h₂ with
      | whileTrue _ hbody hloop =>
          obtain rfl := ihBody hbody
          exact ihLoop hloop
      | whileFalse hfails => simp [hholds] at hfails
  | whileFalse hfails =>
      cases h₂ with
      | whileTrue hholds _ _ => simp [hfails] at hholds
      | whileFalse _ => rfl
  | forLoop _ ih =>
      cases h₂ with
      | forLoop hloop => exact ih hloop

end AtomCompiler
