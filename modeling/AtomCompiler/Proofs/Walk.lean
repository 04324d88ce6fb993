import AtomCompiler.Optimize.Fold
import AtomCompiler.Proofs.KnownValues

/-!
# Steps of the folding walk

What the walk over an atom list does at each kind of atom, to its values and to
its labels.

* `Walk.Forgets` — the walk has learned nothing that it did not know before;
* `Folding.finish_test`, `Folding.finish_loopTest` — everything that the walk can
  do at a test;
* `Layout.eq_of_not_assigned` — what a statement leaves alone, and the walk may
  go on knowing.
-/

namespace AtomCompiler

variable {convention : Convention}

/-! ## Variables that a statement leaves alone -/

@[simp] theorem Assignment.assigned?_lower (assignment : Assignment) :
    assignment.lower.assigned? = some assignment.target := by
  unfold lower
  split <;> rfl

/-- An assignment changes its target and nothing else. -/
theorem Assignment.run_of_ne {assignment : Assignment} {name : String}
    (h : name ≠ assignment.target) (store : Store) :
    assignment.run convention store name = store name := by
  unfold run
  cases assignment.update <;> exact Store.set_of_ne h _ _

/-- **A statement changes no variable but those its atoms assign.** -/
theorem Layout.eq_of_not_assigned {statement : Statement} {atoms : List Atom}
    (hlayout : Layout statement atoms) {start finish : Store}
    (h : Executes convention statement start finish) {name : String}
    (hname : name ∉ assignedOf atoms) : finish name = start name := by
  induction hlayout generalizing start finish with
  | skip =>
      cases h
      rfl
  | seq _ _ ihFirst ihRest =>
      cases h with
      | seq hfirst hrest =>
          rw [assignedOf_append, List.mem_append, not_or] at hname
          rw [ihRest hrest hname.2, ihFirst hfirst hname.1]
  | assign =>
      cases h
      refine Assignment.run_of_ne ?_ start
      rintro rfl
      simp at hname
  | ifThen after _ _ ih =>
      cases h with
      | ifThenTrue _ hbody => exact ih hbody fun hmem => hname (by simp [hmem])
      | ifThenFalse _ => rfl
  | ifElse beforeElse after _ _ _ ihBody ihOther =>
      cases h with
      | ifElseTrue _ hbody => exact ihBody hbody fun hmem => hname (by simp [hmem])
      | ifElseFalse _ hother => exact ihOther hother fun hmem => hname (by simp [hmem])
  | @whileLoop condition body atoms before after _ _ ih =>
      have hbodyName : name ∉ assignedOf atoms := fun hmem => hname (by simp [hmem])
      generalize hloop : Statement.whileLoop condition body = loop at h
      induction h with
      | whileTrue _ hbody _ _ ihLoop =>
          cases hloop
          rw [ihLoop rfl, ih hbody hbodyName]
      | whileFalse _ => rfl
      | _ => cases hloop
  | @forLoop init condition step body atoms _ _ ih =>
      cases h with
      | forLoop hloop =>
          rw [assignedOf_cons, List.mem_append, not_or] at hname
          rw [ih hloop hname.2]
          refine Assignment.run_of_ne ?_ start
          rintro rfl
          simp at hname
  | labelled _ _ ih => exact ih h fun hmem => hname (by simp [hmem])

/-! ## Steps of the walk -/

/-- The last atom that was kept is not the head of a loop. -/
def Settled (walked : List Atom) : Prop :=
  ∀ name earlier, walked = .label name :: earlier → ∀ target, isLoopPair name target = false

/-- Every store that the first walk is right about, the second one is right
about too. -/
def Walk.Forgets (convention : Convention) (walk next : Walk) : Prop :=
  ∀ store, walk.values.Agrees convention store → next.values.Agrees convention store

namespace Walk

variable {walk next : Walk}

theorem Forgets.refl (walk : Walk) : walk.Forgets convention walk :=
  fun _ h => h

/-- Forgetting twice is forgetting. -/
theorem Forgets.trans {last : Walk} (h₁ : walk.Forgets convention next)
    (h₂ : next.Forgets convention last) : walk.Forgets convention last :=
  fun store h => h₂ store (h₁ store h)

/-- At a label the walk learns nothing: it forgets what jumps to the label may have changed. -/
theorem forgets_passLabel (walk : Walk) (name : String) (rest : List Atom) :
    walk.Forgets convention (walk.passLabel name rest) := by
  intro store h
  unfold passLabel
  split
  · exact h
  · exact h.forget _

/-- At a jump the walk learns nothing. -/
theorem forgets_passJump (walk : Walk) (target : String) :
    walk.Forgets convention (walk.passJump target) := by
  intro store h
  unfold passJump
  split <;> exact h

/-- Going into a body the walk learns nothing: it forgets what the body assigns. -/
theorem forgets_enter (walk : Walk) (body : List Atom) (target : String) :
    walk.Forgets convention (walk.enter body target) :=
  fun _ h => h.forget _

/-- A label that is waited for is still waited for when another one is passed. -/
theorem mem_pending_passLabel {walk : Walk} {name other : String} (h : other ∈ walk.pending)
    (hne : other ≠ name) (rest : List Atom) : other ∈ (walk.passLabel name rest).pending :=
  List.mem_filter.mpr ⟨h, by simpa using hne⟩

/-- A jump ends no waiting. -/
theorem mem_pending_passJump {walk : Walk} {target other : String} (h : other ∈ walk.pending) :
    other ∈ (walk.passJump target).pending := by
  unfold passJump
  split
  · exact h
  · exact List.mem_insert_iff.mpr (Or.inr h)

/-- Behind a jump ahead the walk waits for its label. -/
theorem target_mem_pending_passJump {walk : Walk} {target : String} (h : target ∉ walk.seen) :
    target ∈ (walk.passJump target).pending := by
  rw [passJump, if_neg h]
  exact List.mem_insert_self

/-- Going into a body ends no waiting. -/
theorem mem_pending_enter {walk : Walk} {target other : String} (h : other ∈ walk.pending)
    (body : List Atom) : other ∈ (walk.enter body target).pending :=
  List.mem_insert_iff.mpr (Or.inr h)

/-- In a body the walk waits for the label behind it. -/
theorem target_mem_pending_enter (walk : Walk) (body : List Atom) (target : String) :
    target ∈ (walk.enter body target).pending :=
  List.mem_insert_self

/-- The labels that were seen are those that were passed. -/
@[simp] theorem mem_seen_passLabel {walk : Walk} {name other : String} {rest : List Atom} :
    other ∈ (walk.passLabel name rest).seen ↔ other = name ∨ other ∈ walk.seen :=
  List.mem_insert_iff

/-- A jump is no label. -/
@[simp] theorem seen_passJump (walk : Walk) (target : String) :
    (walk.passJump target).seen = walk.seen := by
  unfold passJump
  split <;> rfl

@[simp] theorem seen_enter (walk : Walk) (body : List Atom) (target : String) :
    (walk.enter body target).seen = walk.seen := rfl

end Walk

/-- A label that does not stand in a part of a list is looked for behind that part. -/
theorem splitAtLabel?_append_of_not_mem {name : String} {region back : List Atom}
    (h : name ∉ labelsOf region) :
    splitAtLabel? name (region ++ back) =
      (splitAtLabel? name back).map fun (body, behind) => (region ++ body, behind) := by
  induction region with
  | nil => simp
  | cons atom region ih =>
      rw [labelsOf_cons, List.mem_append, not_or] at h
      have hatom : atom.label? ≠ some name := by
        intro hlabel
        exact h.1 (by simp [hlabel])
      rw [List.cons_append, splitAtLabel?, if_neg hatom, ih h.2, Option.map_map]
      rfl

/-- A label that does not stand in a list is found right behind it. -/
theorem splitAtLabel?_append {name : String} {body after : List Atom}
    (h : name ∉ labelsOf body) :
    splitAtLabel? name (body ++ .label name :: after) = some (body, after) := by
  rw [splitAtLabel?_append_of_not_mem h]
  simp [splitAtLabel?]

namespace Folding

/-- The walk is one step, and then the walk from there. -/
theorem finish_cons (walk : Walk) (walked : List Atom) (atom : Atom) (rest : List Atom) :
    finish walk walked (atom :: rest) =
      finish (step walk walked atom rest).walk (step walk walked atom rest).walked
        (step walk walked atom rest).ahead := by
  rw [finish]

/-- The walk passes a label and keeps it. -/
theorem finish_label (walk : Walk) (walked : List Atom) (name : String) (rest : List Atom) :
    finish walk walked (.label name :: rest) =
      finish (walk.passLabel name rest) (.label name :: walked) rest :=
  finish_cons _ _ _ _

/-- The walk passes a jump and keeps it. -/
theorem finish_jump (walk : Walk) (walked : List Atom) (target : String) (rest : List Atom) :
    finish walk walked (.jump target :: rest) =
      finish (walk.passJump target) (.jump target :: walked) rest :=
  finish_cons _ _ _ _

/-- **What the walk does at a test that heads no loop.**  It drops the region of a
test that is known to fail, or it goes on into the body. -/
theorem finish_test {walked : List Atom} (hsettled : Settled walked) {condition : Condition}
    {target : String} {body : List Atom} (hfresh : target ∉ labelsOf body) (walk : Walk)
    (after : List Atom) :
    let outcome := walk.values.outcome? condition.left.operand condition.comparison
      condition.right.operand
    let ahead := body ++ .label target :: after
    let started := finish walk walked (condition.lower target :: ahead)
    (outcome = some false ∧ started = finish walk walked after) ∨
    (outcome = some true ∧ started = finish walk (condition.lower target :: walked) ahead) ∨
    started = finish (walk.enter body target) (condition.lower target :: walked) ahead := by
  have hbranch : Branch.of? walked condition.left.operand condition.right.operand
      condition.comparison target (body ++ .label target :: after) =
        some ⟨condition.left.operand, condition.right.operand, condition.comparison, target,
          none, walked, body, after⟩ := by
    rw [Branch.of?, splitAtLabel?_append hfresh, Option.map_some]
    cases walked with
    | nil => rfl
    | cons atom earlier =>
        cases atom with
        | label name => simp [hsettled name earlier rfl target]
        | _ => rfl
  have hstarted : finish walk walked (condition.lower target :: (body ++ .label target :: after)) =
      _ := finish_cons walk walked _ _
  simp only [Condition.lower, step, hbranch, passTest] at hstarted ⊢
  rw [hstarted]
  split
  · next hfalse =>
      split
      · exact Or.inr (Or.inr rfl)
      · exact Or.inl ⟨hfalse, rfl⟩
  · next htrue => exact Or.inr (Or.inl ⟨htrue, rfl⟩)
  · exact Or.inr (Or.inr rfl)

/-- **What the walk does at the test of a loop.**  It drops a loop that is known not
to be entered, it runs the loop ahead of time, or it goes on into the body. -/
theorem finish_loopTest {before target : String} (hpair : isLoopPair before target = true)
    {condition : Condition} {body : List Atom} (hfresh : target ∉ labelsOf body) (walk : Walk)
    (walked after : List Atom) :
    let outcome := walk.values.outcome? condition.left.operand condition.comparison
      condition.right.operand
    let ahead := body ++ .label target :: after
    let region := .label before :: condition.lower target :: (body ++ [.label target])
    let started := finish walk (.label before :: walked) (condition.lower target :: ahead)
    (outcome = some false ∧ started = finish walk walked after) ∨
    (walk.certain = true ∧ ∃ values, walk.values.simulate? region = some values ∧
      started = finish (walk.passLoop values target) (region.reverse ++ walked) after) ∨
    started = finish (walk.enter body target) (condition.lower target :: .label before :: walked)
      ahead := by
  have hbranch : Branch.of? (.label before :: walked) condition.left.operand
      condition.right.operand condition.comparison target (body ++ .label target :: after) =
        some ⟨condition.left.operand, condition.right.operand, condition.comparison, target,
          some before, walked, body, after⟩ := by
    rw [Branch.of?, splitAtLabel?_append hfresh, Option.map_some]
    simp [hpair]
  have hstarted : finish walk (.label before :: walked)
      (condition.lower target :: (body ++ .label target :: after)) = _ :=
    finish_cons walk (.label before :: walked) _ _
  simp only [Condition.lower, step, hbranch, passTest] at hstarted ⊢
  rw [hstarted]
  split
  · next hfalse =>
      split
      · exact Or.inr (Or.inr rfl)
      · exact Or.inl ⟨hfalse, rfl⟩
  · simp only [Option.isNone_some, Bool.false_eq_true, if_false]
    split
    · next hcertain =>
        split
        · next values hvalues => exact Or.inr (Or.inl ⟨hcertain, values, hvalues, rfl⟩)
        · exact Or.inr (Or.inr rfl)
    · exact Or.inr (Or.inr rfl)
  · exact Or.inr (Or.inr rfl)

end Folding

end AtomCompiler
