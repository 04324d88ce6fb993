import AtomCompiler.Proofs.Regions
import AtomCompiler.Proofs.Walk

/-!
# What the walk does to a list

The walk that deletes branches goes over a list of any origin.  At each step the
list it has in hand stays as it is, or loses a region that nothing outside jumps
into.

* `Branch.of?_cases` — how a branch cuts the list;
* `Folding.passTest_cases` — everything that the walk can do at a test;
* `Folding.code_step_cases` — everything that a step can do to the list;
* `Folding.finish_induction` — what every deletion keeps is kept by the walk.
-/

namespace AtomCompiler

/-! ## Branches -/

namespace Branch

/-- How a branch cuts the list: its region stands between the atoms before it and
those after it.  The label in front of the test belongs to it exactly if it is named
as the head of the test's loop. -/
theorem of?_cases {walked rest : List Atom} {left right : String} {comparison : Comparison}
    {target : String} {branch : Branch}
    (h : of? walked left right comparison target rest = some branch) :
    ∃ head earlier body after,
      branch = ⟨left, right, comparison, target, head, earlier, body, after⟩ ∧
      splitAtLabel? target rest = some (body, after) ∧
      ((head = none ∧ earlier = walked ∧
          ∀ name front, walked = .label name :: front → isLoopPair name target = false) ∨
        ∃ name, head = some name ∧ walked = .label name :: earlier ∧
          isLoopPair name target = true) := by
  obtain ⟨⟨body, after⟩, hsplit, rfl⟩ := Option.map_eq_some_iff.mp h
  dsimp only
  split
  · next name earlier =>
      split
      · next hpair =>
          exact ⟨some name, earlier, body, after, rfl, hsplit, Or.inr ⟨name, rfl, rfl, hpair⟩⟩
      · next hpair =>
          refine ⟨none, _, body, after, rfl, hsplit, Or.inl ⟨rfl, rfl, ?_⟩⟩
          rintro _ _ ⟨⟩
          exact Bool.eq_false_iff.mpr hpair
  · next hlabel =>
      refine ⟨none, walked, body, after, rfl, hsplit, Or.inl ⟨rfl, rfl, ?_⟩⟩
      intro name front heq
      exact (hlabel name front heq).elim

/-- Without a label in front the region of a branch begins at its test. -/
theorem region_of_head_none {branch : Branch} (h : branch.head = none) :
    branch.region = branch.test :: (branch.body ++ [.label branch.target]) := by
  simp [region, h]

/-- The region of a loop begins at its label. -/
theorem region_of_head_some {branch : Branch} {name : String} (h : branch.head = some name) :
    branch.region =
      .label name :: branch.test :: (branch.body ++ [.label branch.target]) := by
  simp [region, h]

/-- A branch ends with the label of its test. -/
theorem getElem?_region_last (branch : Branch) :
    branch.region[branch.region.length - 1]? = some (.label branch.target) := by
  simp [region]

/-- The test of a branch is the one that it was found at. -/
theorem test_eq {walked rest : List Atom} {left right : String} {comparison : Comparison}
    {target : String} {branch : Branch}
    (h : of? walked left right comparison target rest = some branch) :
    branch.test = .test left right comparison target := by
  obtain ⟨head, earlier, body, after, rfl, -, -⟩ := of?_cases h
  rfl

/-- **A branch is a region of the list.** -/
theorem code_eq {walked rest : List Atom} {left right : String} {comparison : Comparison}
    {target : String} {branch : Branch}
    (h : of? walked left right comparison target rest = some branch) :
    walked.reverse ++ .test left right comparison target :: rest =
      branch.earlier.reverse ++ branch.region ++ branch.after := by
  obtain ⟨head, earlier, body, after, rfl, hsplit, ⟨rfl, rfl, -⟩ | ⟨name, rfl, rfl, -⟩⟩ :=
    of?_cases h
  · simp [region, test, (splitAtLabel?_eq_some hsplit).1]
  · simp [region, test, (splitAtLabel?_eq_some hsplit).1]

end Branch

/-! ## Steps of the walk -/

namespace Folding

/-- The list that the walk has in hand. -/
def code (folding : Folding) : List Atom :=
  folding.walked.reverse ++ folding.ahead

/-- **Everything that the walk can do at a test** whose label stands ahead.  It drops
the branch, it goes on where the test is known to hold, it goes on behind a loop that
was run ahead of time, or it goes into the body. -/
theorem passTest_cases (walk : Walk) (branch : Branch) (walked rest : List Atom) :
    (walk.values.outcome? branch.left branch.comparison branch.right = some false ∧
      branch.isEnteredElsewhere = false ∧
      passTest walk branch walked rest = ⟨walk, branch.earlier, branch.after⟩) ∨
    (walk.values.outcome? branch.left branch.comparison branch.right = some true ∧
      branch.head = none ∧
      passTest walk branch walked rest = ⟨walk, branch.test :: walked, rest⟩) ∨
    (branch.head.isSome ∧ walk.pending = [] ∧
      ∃ values, walk.values.simulate? branch.region = some values ∧
        passTest walk branch walked rest = ⟨walk.passLoop values branch.target,
          branch.region.reverse ++ branch.earlier, branch.after⟩) ∨
    passTest walk branch walked rest = uncertain walk branch walked rest := by
  unfold passTest
  split
  · next hfalse =>
      split
      · exact Or.inr (Or.inr (Or.inr rfl))
      · next hentered => exact Or.inl ⟨hfalse, by simpa using hentered, rfl⟩
  · next htrue =>
      split
      · next hhead => exact Or.inr (Or.inl ⟨htrue, by simpa using hhead, rfl⟩)
      · next hhead =>
          split
          · next hcertain =>
              split
              · next values hvalues =>
                  refine Or.inr (Or.inr (Or.inl ⟨?_, ?_, values, hvalues, rfl⟩))
                  · simpa [Option.isSome_iff_ne_none] using hhead
                  · simpa [Walk.certain] using hcertain
              · exact Or.inr (Or.inr (Or.inr rfl))
          · exact Or.inr (Or.inr (Or.inr rfl))
  · exact Or.inr (Or.inr (Or.inr rfl))

/-- **Everything that a step can do to the list.**  The list stays as it is, or it
loses a branch that nothing else jumps into. -/
theorem code_step_cases (walk : Walk) (walked : List Atom) (atom : Atom) (rest : List Atom) :
    (step walk walked atom rest).code = walked.reverse ++ atom :: rest ∨
    ∃ left right comparison target branch, atom = .test left right comparison target ∧
      Branch.of? walked left right comparison target rest = some branch ∧
      branch.isEnteredElsewhere = false ∧
      (step walk walked atom rest).code = branch.earlier.reverse ++ branch.after := by
  cases atom with
  | test left right comparison target =>
      cases hbranch : Branch.of? walked left right comparison target rest with
      | none => exact Or.inl (by simp [step, hbranch, code])
      | some branch =>
          have hcode := Branch.code_eq hbranch
          have htest := Branch.test_eq hbranch
          simp only [step, hbranch]
          rcases passTest_cases walk branch walked rest with
            ⟨-, hentered, hnext⟩ | ⟨-, -, hnext⟩ | ⟨-, -, values, -, hnext⟩ | hnext
          · exact Or.inr ⟨_, _, _, _, branch, rfl, hbranch, hentered, by rw [hnext]; rfl⟩
          · exact Or.inl (by rw [hnext]; simp [code, htest])
          · exact Or.inl (by rw [hnext, hcode]; simp [code])
          · exact Or.inl (by rw [hnext]; simp [code, uncertain, htest])
  | _ => exact Or.inl (by simp [step, code])

/-- The list stays as it is, or it loses a region that nothing outside jumps into. -/
theorem code_step (walk : Walk) (walked : List Atom) (atom : Atom) (rest : List Atom) :
    (step walk walked atom rest).code = walked.reverse ++ atom :: rest ∨
    ∃ before region after, walked.reverse ++ atom :: rest = before ++ region ++ after ∧
      (step walk walked atom rest).code = before ++ after ∧
      entersFrom (before ++ after) region = false := by
  rcases code_step_cases walk walked atom rest with hcode | ⟨left, right, comparison, target,
    branch, rfl, hbranch, hentered, hnext⟩
  · exact Or.inl hcode
  · refine Or.inr ⟨_, _, _, Branch.code_eq hbranch, hnext, ?_⟩
    rw [entersFrom_eq_false]
    intro jump hjump
    refine entersFrom_eq_false.mp hentered jump ?_
    simpa [jumpTargetsOf] using hjump

/-- **What every deletion keeps, the walk keeps.** -/
theorem finish_induction (property : List Atom → Prop)
    (hdrop : ∀ before region after, entersFrom (before ++ after) region = false →
      property (before ++ region ++ after) → property (before ++ after))
    (walk : Walk) (walked ahead : List Atom) (h : property (walked.reverse ++ ahead)) :
    property (finish walk walked ahead) := by
  fun_induction finish walk walked ahead with
  | case1 => simpa using h
  | case2 walk walked atom rest next ih =>
      apply ih
      show property (step walk walked atom rest).code
      rcases code_step walk walked atom rest with hcode | ⟨before, region, after, hcode, hnext, hout⟩
      · rw [hcode]
        exact h
      · rw [hnext]
        rw [hcode] at h
        exact hdrop before region after hout h

end Folding

end AtomCompiler
