import AtomCompiler.Optimize.Basic
import AtomCompiler.Proofs.Folding
import AtomCompiler.Proofs.Meaning

/-!
# The optimiser keeps the meaning of programs

Lowered programs are laid out as the folding walk expects them: their loops are
named as loops, and their jumps all stand before labels.

* `foldable_lower` — every lowered statement is foldable;
* `terminates_foldBranches_iff` — folding the branches of a program keeps its
  meaning;
* `removeUnreachable_atoms` — there is nothing unreachable to remove;
* `terminates_optimize_iff` — the atoms of a program text end where the optimised
  atoms do.
-/

namespace AtomCompiler

variable {convention : Convention}

/-! ## Lowered programs -/

/-- Only the labels at the heads of loops are named as such. -/
theorem isLoopPair_label {base : LabelBase} (place : Nat) (hwhile : base ≠ .beforeWhile)
    (hfor : base ≠ .beforeFor) (target : String) :
    isLoopPair (base.label place) target = false := by
  unfold isLoopPair
  rw [LabelBase.splitLastUnderscore?_label]
  split
  · next heq _ =>
      obtain ⟨rfl, -⟩ := Prod.mk.inj (Option.some.inj heq)
      cases base <;> simp_all [LabelBase.text]
  · rfl

/-- The two labels of a loop are named as its head and its end. -/
theorem isLoopPair_loop {head last : LabelBase} (place : Nat)
    (h : head = .beforeWhile ∨ head = .beforeFor) :
    isLoopPair (head.label place) (last.label place) = true := by
  unfold isLoopPair
  rw [LabelBase.splitLastUnderscore?_label, LabelBase.splitLastUnderscore?_label]
  rcases h with rfl | rfl <;> simp

/-- **Every lowered statement is foldable.** -/
theorem foldable_lower (hnegate : convention.negate = Neg.neg) {statement : Statement}
    (h : statement.IsLegible) (place : Nat) :
    Foldable convention statement (statement.lower place) := by
  induction statement generalizing place with
  | skip => exact foldable_skip
  | seq first rest ihFirst ihRest =>
      exact foldable_seq (nodup_labelsOf_lower (.seq first rest) place) (ihFirst h.1 _)
        (ihRest h.2 _)
  | assign assignment => exact foldable_assign hnegate h
  | ifThen condition body ih =>
      have hnot : LabelBase.afterIf.label place ∉ labelsOf (body.lower (place + 1)) := by
        rw [labelsOf_lower]
        exact label_not_mem_labels (Or.inl (by omega))
      exact foldable_ifThen h.1 (isLoopPair_label place (by decide) (by decide)) hnot (ih h.2 _)
  | ifElse condition body other ihBody ihOther =>
      have hlabels := nodup_labels (.ifElse condition body other) place
      rw [Statement.labels, ← labelsOf_lower, ← labelsOf_lower] at hlabels
      have hfoldable := foldable_ifElse h.1 (isLoopPair_label place (by decide) (by decide))
        (isLoopPair_label _ (by decide) (by decide)) hlabels (ihBody h.2.1 _) (ihOther h.2.2 _)
      simpa [Statement.lower] using hfoldable
  | whileLoop condition body ih =>
      have hlabels := nodup_labels (.whileLoop condition body) place
      rw [Statement.labels, ← labelsOf_lower] at hlabels
      exact foldable_whileLoop hnegate h.1 (layout_lower h.2 _)
        (isLoopPair_loop place (Or.inl rfl)) (isLoopPair_label place (by decide) (by decide))
        hlabels (ih h.2 _)
  | forLoop init condition step body ih =>
      obtain ⟨hinit, hcondition, hstep, hbody⟩ := h
      have hlabels := nodup_labels (.forLoop init condition step body) place
      rw [Statement.labels, ← labelsOf_lower] at hlabels
      have hround : Foldable convention (.seq body (.assign step))
          (body.lower (place + 3) ++ [step.lower]) := by
        refine foldable_seq ?_ (ih hbody _) (foldable_assign hnegate hstep)
        simpa using nodup_labelsOf_lower body (place + 3)
      have hend : ∀ target, isLoopPair (LabelBase.afterFor.label (place + 1)) target = false :=
        isLoopPair_label (place + 1) (by decide) (by decide)
      have hloop := foldable_whileLoop hnegate hcondition
        (.seq (layout_lower hbody (place + 3)) (.assign hstep))
        (isLoopPair_loop (place + 1) (Or.inr rfl)) hend (by simpa using hlabels) hround
      have hwhole := foldable_seq (by simpa using hlabels) (foldable_assign hnegate hinit) hloop
      have hatoms : (Statement.forLoop init condition step body).lower place = [init.lower] ++
          loopAtoms condition (body.lower (place + 3) ++ [step.lower])
            (LabelBase.beforeFor.label (place + 1)) (LabelBase.afterFor.label (place + 1)) := by
        simp [Statement.lower]
      rw [hatoms]
      apply hwhole.congr
      intro start finish
      constructor
      · intro hexecutes
        cases hexecutes with
        | seq hfirst hrest =>
            cases hfirst
            exact .forLoop hrest
      · intro hexecutes
        cases hexecutes with
        | forLoop hrest => exact .seq (.assign init start) hrest

/-! ## Whole programs -/

/-- **Folding the branches of a program keeps its meaning.** -/
theorem terminates_foldBranches_iff (hnegate : convention.negate = Neg.neg) {program : Statement}
    (h : program.IsLegible) {finish : Store} :
    Terminates convention (foldBranches program.atoms) Store.zero finish ↔
      Terminates convention program.atoms Store.zero finish := by
  obtain ⟨result, kept, next, hfinish, -, hlayout, hsublist, hfolded⟩ :=
    foldable_lower hnegate h 0 {} [] [] (fun _ _ heq => by cases heq)
      (fun _ _ hmem => by cases hmem)
  have hkept : foldBranches program.atoms = kept := by
    rw [List.append_nil] at hfinish
    rw [foldBranches, Statement.atoms, hfinish, Folding.finish]
    simp
  have hlabels := nodup_labelsOf_lower program 0
  have hkeptLabels : (labelsOf kept).Nodup := hlabels.sublist (hsublist.filterMap _)
  rw [hkept, hlayout.terminates_iff hkeptLabels,
    hfolded.executes_iff (Values.agrees_zero convention)]
  exact ((layout_lower h 0).terminates_iff hlabels).symm

section Reachable

/-- A label is kept. -/
theorem keepReachable_label (name : String) (rest : List Atom) :
    keepReachable true (.label name :: rest) = .label name :: keepReachable true rest :=
  rfl

/-- A test is kept, and control may go on behind it. -/
theorem keepReachable_test (condition : Condition) (target : String) (rest : List Atom) :
    keepReachable true (condition.lower target :: rest) =
      condition.lower target :: keepReachable true rest :=
  rfl

/-- An assignment is kept, and control goes on behind it. -/
theorem keepReachable_assignment (assignment : Assignment) (rest : List Atom) :
    keepReachable true (assignment.lower :: rest) =
      assignment.lower :: keepReachable true rest := by
  unfold Assignment.lower
  split <;> rfl

/-- A label behind a jump can be reached. -/
theorem keepReachable_jump (target name : String) (rest : List Atom) :
    keepReachable true (.jump target :: .label name :: rest) =
      .jump target :: .label name :: keepReachable true rest :=
  rfl

/-- Every jump of a lowered statement stands before a label, so all its atoms
can be reached. -/
theorem keepReachable_lower (statement : Statement) (place : Nat) (rest : List Atom) :
    keepReachable true (statement.lower place ++ rest) =
      statement.lower place ++ keepReachable true rest := by
  induction statement generalizing place rest with
  | skip => rfl
  | seq first rest ihFirst ihRest => simp [Statement.lower, ihFirst, ihRest]
  | assign assignment => exact keepReachable_assignment assignment rest
  | ifThen condition body ih =>
      simp [Statement.lower, keepReachable_test, ih, keepReachable_label]
  | ifElse condition body other ihBody ihOther =>
      simp [Statement.lower, keepReachable_test, ihBody, ihOther, keepReachable_jump,
        keepReachable_label]
  | whileLoop condition body ih =>
      simp [Statement.lower, keepReachable_label, keepReachable_test, ih, keepReachable_jump]
  | forLoop init condition step body ih =>
      simp [Statement.lower, keepReachable_assignment, keepReachable_label, keepReachable_test,
        ih, keepReachable_jump]

/-- **Lowered programs have no unreachable atoms.** -/
theorem removeUnreachable_atoms (program : Statement) :
    removeUnreachable program.atoms = program.atoms := by
  have hkept := keepReachable_lower program 0 []
  simpa [removeUnreachable, Statement.atoms, keepReachable] using hkept

end Reachable

/-- **Optimisation preserves meaning.**  Whatever a program text is compiled to,
from the store of zeros the optimised atoms end in a store exactly when the atoms
themselves do. -/
theorem terminates_optimize_iff {text : String} {atoms : List Atom}
    (h : compile text = .ok atoms) (divisionByZero : Float → Float → Float)
    (badLiteral : Float) (finish : Store) :
    Terminates ⟨divisionByZero, badLiteral, Neg.neg⟩ atoms Store.zero finish ↔
      Terminates ⟨divisionByZero, badLiteral, Neg.neg⟩ (optimize atoms) Store.zero finish := by
  obtain ⟨tokens, htokens, hatoms⟩ := tokenize_of_compile h
  obtain ⟨program, hprogram, rfl⟩ := parse_of_compileTokens hatoms
  have hlegible := isLegible_of_parse htokens hprogram
  rw [optimize, removeUnreachable_atoms]
  exact (terminates_foldBranches_iff rfl hlegible).symm

/-- A loop that is run ahead of time decides which of two branches is kept. -/
theorem terminates_optimize_iff_countdown :
    ∃ atoms, compile "x = 2; while (x > 0) \x7b x--; \x7d if (x == 1) \x7b y = x; \x7d" =
        .ok atoms ∧
      (optimize atoms).length < atoms.length ∧
      ∀ finish, Terminates (.floating Neg.neg) atoms Store.zero finish ↔
        Terminates (.floating Neg.neg) (optimize atoms) Store.zero finish := by
  have hcompile : compile "x = 2; while (x > 0) \x7b x--; \x7d if (x == 1) \x7b y = x; \x7d" =
      .ok [.move "2" "x", .label "before_while_1", .test "x" "0" .greater "after_while_1",
        .arithmetic .subtract "x" "1" "x", .jump "before_while_1", .label "after_while_1",
        .test "x" "1" .equal "after_if_6", .move "x" "y", .label "after_if_6"] := by
    apply eq_ok_of_toOption
    decide +kernel
  exact ⟨_, hcompile, by decide +kernel, terminates_optimize_iff hcompile (· / ·) 0⟩

end AtomCompiler
