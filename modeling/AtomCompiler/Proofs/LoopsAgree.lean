import AtomCompiler.Proofs.LoopShapes

/-!
# Loops during the walk

The walk that folds branches deletes some of them on its way.  What is left of a list in
which every label and test stands as expected is such a list again, so the walk over the
atoms of a program never comes to a loop that it does not know or to a branch that is
entered from elsewhere.

* `Regular` — a list in which every label and test stands as the walk expects it;
* `Regular.without_branch` — deleting a branch keeps it so;
* `Regular.next`, `Regular.reaches` — and so do a step of the walk and the walk;
* `LoopsAgree` — how the loops of a program stand in its atoms;
* `compileTokens_loops_agree` — what this says about whatever compiles.
-/

namespace AtomCompiler

variable {name target : String} {walked rest : List Atom}

/-! ## The walk -/

/-- A list in which every atom stands as the walk expects it. -/
def Regular (code : List Atom) : Prop :=
  Everywhere RegularAt [] [] code

/-- The atoms of a program stand as the walk expects them. -/
theorem regular_atoms (program : Statement) : Regular program.atoms := by
  refine everywhere_regularAt_lower program 0 ?_ ?_ ?_
  · intro name earlier heq
    cases heq
  · intro target htarget
    cases htarget
  · intro target htarget
    cases htarget

/-- Deleting a part that does not hold a label leaves less in front of the label and less
behind it. -/
theorem splitAtLabel?_without {front region back body behind : List Atom}
    (hregion : name ∉ labelsOf region)
    (h : splitAtLabel? name (front ++ (region ++ back)) = some (body, behind)) :
    ∃ body' behind', splitAtLabel? name (front ++ back) = some (body', behind') ∧
      body'.Sublist body ∧ behind'.Sublist behind := by
  induction front generalizing body with
  | nil =>
      rw [List.nil_append, splitAtLabel?_append_of_not_mem hregion] at h
      obtain ⟨⟨inner, _⟩, hinner, heq⟩ := Option.map_eq_some_iff.mp h
      obtain ⟨rfl, rfl⟩ := Prod.mk.inj heq
      exact ⟨inner, _, hinner, List.sublist_append_right region inner, List.Sublist.refl _⟩
  | cons atom front ih =>
      rw [List.cons_append, splitAtLabel?] at h ⊢
      split at h
      · obtain ⟨rfl, rfl⟩ := Prod.mk.inj (Option.some.inj h)
        exact ⟨[], front ++ back, by simp [*], List.Sublist.refl _,
          (List.Sublist.refl front).append (List.sublist_append_right region back)⟩
      · obtain ⟨⟨inner, _⟩, hinner, heq⟩ := Option.map_eq_some_iff.mp h
        obtain ⟨rfl, rfl⟩ := Prod.mk.inj heq
        obtain ⟨inner', behind', hinner', hbody, hbehind⟩ := ih hinner
        exact ⟨atom :: inner', behind', by simp [*], hbody.cons_cons atom, hbehind⟩

/-- Deleting atoms brings no new jump targets. -/
theorem mem_jumpTargetsOf_of_sublist {shorter longer : List Atom} (h : shorter.Sublist longer)
    (htarget : target ∈ jumpTargetsOf shorter) : target ∈ jumpTargetsOf longer :=
  (h.filterMap _).subset htarget

/-- A branch goes on to be closed to jumps from outside when atoms around it and in it are
deleted, if no label moves up to its test that is named as the head of its loop. -/
theorem Sealed.mono {walked' rest' : List Atom} (h : Sealed walked target rest)
    (hsplit : ∀ body behind, splitAtLabel? target rest = some (body, behind) →
      ∃ body' behind', splitAtLabel? target rest' = some (body', behind') ∧
        body'.Sublist body ∧ behind'.Sublist behind)
    (hwalked : walked'.Sublist walked)
    (hhead : ∀ name earlier, walked' = .label name :: earlier → isLoopPair name target = true →
      ∃ earlier', walked = .label name :: earlier') :
    Sealed walked' target rest' := by
  obtain ⟨body, behind, hfound, hout⟩ := h
  obtain ⟨body', behind', hfound', hbody, hbehind⟩ := hsplit body behind hfound
  refine ⟨body', behind', hfound', fun jump hjump => ?_⟩
  obtain ⟨hnot, hne, hloop⟩ :=
    hout jump (mem_jumpTargetsOf_of_sublist (hwalked.append hbehind) hjump)
  refine ⟨fun hmem => hnot ((hbody.filterMap _).subset hmem), hne, fun earlier heq => ?_⟩
  refine Bool.eq_false_iff.mpr fun hpair => ?_
  obtain ⟨earlier', heq'⟩ := hhead jump earlier heq hpair
  rw [hloop earlier' heq'] at hpair
  cases hpair

/-- The label before a branch is not the head of a loop that begins with the branch. -/
theorem Branch.isLoopHead_earlier {left right : String} {comparison : Comparison}
    {branch : Branch} {earlier atoms : List Atom}
    (h : Branch.of? walked left right comparison target rest = some branch)
    (hearlier : branch.earlier = .label name :: earlier) :
    isLoopHead name (branch.region ++ atoms) = false := by
  obtain ⟨_, _, _, _, rfl, -, ⟨rfl, rfl, hnot⟩ | ⟨head, rfl, rfl, -⟩⟩ := Branch.of?_cases h
  · exact hnot name earlier hearlier
  · rfl

/-- An atom stays regular when a part behind it is deleted that it does not jump into. -/
theorem RegularAt.without_behind {atom : Atom} {front region back : List Atom}
    (h : RegularAt walked atom (front ++ (region ++ back)))
    (hout : ∀ jump, atom.jumpTarget? = some jump → jump ∉ labelsOf region)
    (hhead : ∀ name, atom = .label name → front = [] → isLoopHead name (region ++ back) = false) :
    RegularAt walked atom (front ++ back) := by
  have hless : (front ++ back).Sublist (front ++ (region ++ back)) :=
    (List.Sublist.refl front).append (List.sublist_append_right region back)
  cases atom with
  | label name =>
      rcases h with h | ⟨hnot, hjump⟩
      · cases front with
        | nil =>
            rw [List.nil_append, hhead name rfl rfl] at h
            cases h
        | cons next front => exact Or.inl (by cases next <;> exact h)
      · exact Or.inr ⟨hnot, fun hmem => hjump (mem_jumpTargetsOf_of_sublist hless hmem)⟩
  | test left right comparison target =>
      refine Sealed.mono h (fun body behind hfound => ?_) (List.Sublist.refl walked) ?_
      · exact splitAtLabel?_without (hout target rfl) hfound
      · intro name earlier heq _
        exact ⟨earlier, heq⟩
  | _ => trivial

/-- An atom stays regular when a part before it is deleted and no head of a loop moves up
to it. -/
theorem RegularAt.without_before {atom : Atom} {front region earlier : List Atom}
    (h : RegularAt (front ++ (region ++ earlier)) atom rest) (hsettled : Settled earlier) :
    RegularAt (front ++ earlier) atom rest := by
  cases atom with
  | label name => exact h
  | test left right comparison target =>
      refine Sealed.mono h (fun body behind hfound => ?_) ?_ ?_
      · exact ⟨body, behind, hfound, List.Sublist.refl body, List.Sublist.refl behind⟩
      · exact (List.Sublist.refl front).append (List.sublist_append_right region earlier)
      · intro name later heq hpair
        cases front with
        | nil => exact (hsettled.not_isLoopPair heq hpair).elim
        | cons next front =>
            obtain ⟨rfl, -⟩ := List.cons.inj heq
            exact ⟨_, rfl⟩
  | _ => trivial

/-- **What is left of a regular list is regular** when a branch is deleted that nothing
else jumps into. -/
theorem Regular.without_branch {left right : String} {comparison : Comparison} {branch : Branch}
    (h : Regular (walked.reverse ++ .test left right comparison target :: rest))
    (hbranch : Branch.of? walked left right comparison target rest = some branch)
    (hentered : branch.isEnteredElsewhere = false) :
    Regular (branch.earlier.reverse ++ branch.after) := by
  rw [Regular, Branch.code_eq hbranch, List.append_assoc, everywhere_append, everywhere_append] at h
  obtain ⟨hearlier, -, hafter⟩ := h
  simp only [everywhere_iff, List.append_nil, List.reverse_reverse] at hearlier hafter
  have hout : ∀ jump ∈ jumpTargetsOf (branch.earlier ++ branch.after),
      jump ∉ labelsOf branch.region := entersFrom_eq_false.mp hentered
  have hsettled : Settled branch.earlier := by
    intro name earlier heq
    have hlabel := hearlier earlier.reverse (.label name) [] (by simp [heq])
    rcases hlabel with hhead | ⟨hnot, -⟩
    · rw [List.nil_append, Branch.isLoopHead_earlier hbranch heq] at hhead
      cases hhead
    · exact not_namesLoop_iff.mp hnot
  rw [Regular, everywhere_append]
  simp only [everywhere_iff, List.append_nil, List.reverse_reverse]
  constructor
  · intro front atom rest heq
    refine RegularAt.without_behind (hearlier front atom rest heq) ?_ ?_
    · intro jump hjump
      have hmem : atom ∈ branch.earlier := by
        rw [← List.mem_reverse, heq]
        simp
      exact hout jump (List.mem_filterMap.mpr ⟨atom, List.mem_append_left _ hmem, hjump⟩)
    · rintro name rfl rfl
      have hlast : branch.earlier = .label name :: front.reverse := by
        rw [← List.reverse_reverse branch.earlier, heq]
        simp
      exact Branch.isLoopHead_earlier hbranch hlast
  · intro front atom rest heq
    exact (hafter front atom rest heq).without_before hsettled

namespace Folding

/-- One step of the walk, unless it has come to the end. -/
def next? (folding : Folding) : Option Folding :=
  match folding.ahead with
  | [] => none
  | atom :: rest => some (step folding.walk folding.walked atom rest)

/-- The walk comes to the end of the list with the atoms that are kept. -/
theorem reaches_finish (walk : Walk) (walked ahead : List Atom) :
    ∃ last : Folding, Reaches next? ⟨walk, walked, ahead⟩ last ∧ last.ahead = [] ∧
      last.code = finish walk walked ahead := by
  fun_induction finish walk walked ahead with
  | case1 walk walked => exact ⟨_, Reaches.refl _ _, rfl, by simp [code]⟩
  | case2 walk walked atom rest next ih =>
      obtain ⟨last, hreach, hend, hcode⟩ := ih
      exact ⟨last, hreach.head rfl, hend, hcode⟩

end Folding

/-- A step of the walk leaves a regular list regular. -/
theorem Regular.next {folding next : Folding} (h : Regular folding.code)
    (hstep : folding.next? = some next) : Regular next.code := by
  obtain ⟨walk, walked, ahead⟩ := folding
  cases ahead with
  | nil => cases hstep
  | cons atom rest =>
      obtain rfl := Option.some.inj hstep
      rcases Folding.code_step_cases walk walked atom rest with
        hcode | ⟨left, right, comparison, target, branch, rfl, hbranch, hentered, hcode⟩
      · rw [hcode]
        exact h
      · rw [hcode]
        exact Regular.without_branch h hbranch hentered

/-- **Wherever the walk over a regular list comes to, the list in its hand is regular.** -/
theorem Regular.reaches {start folding : Folding} (h : Regular start.code)
    (hreach : Reaches Folding.next? start folding) : Regular folding.code := by
  obtain ⟨n, hrun⟩ := hreach
  induction n generalizing start with
  | zero =>
      obtain rfl := Option.some.inj hrun
      exact h
  | succ n ih =>
      obtain ⟨next, hstep, hrest⟩ := Option.bind_eq_some_iff.mp hrun
      exact ih (h.next hstep) hrest

/-- An atom of a regular list stands as the walk expects it. -/
theorem Regular.regularAt {before : List Atom} {atom : Atom}
    (h : Regular (before ++ atom :: rest)) : RegularAt before.reverse atom rest := by
  simpa using everywhere_iff.mp h before atom rest rfl

/-! ## Compiled programs -/

/-- How the loops of a program stand in its atoms, and what the walk makes of them. -/
structure LoopsAgree (program : Statement) (atoms : List Atom) : Prop where
  /-- The label of a test stands behind it, and not before it. -/
  tests : ∀ before left right comparison target rest,
    atoms = before ++ .test left right comparison target :: rest →
      target ∈ labelsOf rest ∧ target ∉ labelsOf before
  /-- Nothing else jumps into the branch of a test. -/
  branches : ∀ before left right comparison target rest,
    atoms = before ++ .test left right comparison target :: rest →
      ∃ branch, Branch.of? before.reverse left right comparison target rest = some branch ∧
        branch.isEnteredElsewhere = false
  /-- Every loop of the program has its label among the atoms. -/
  loops : ∀ name ∈ program.loopLabels 0, .label name ∈ atoms
  /-- The walk takes a label for the head of a loop exactly if it is one. -/
  heads : ∀ before name rest, atoms = before ++ .label name :: rest →
    (isLoopHead name rest = true ↔ name ∈ program.loopLabels 0)
  /-- A jump goes back exactly if it goes to the head of a loop, and otherwise ahead. -/
  jumps : ∀ before target rest, atoms = before ++ .jump target :: rest →
    (target ∈ labelsOf before ↔ target ∈ program.loopLabels 0) ∧
      (target ∈ labelsOf rest ↔ target ∉ program.loopLabels 0)
  /-- A jump that goes back stands right before the label that the test of the loop jumps
  to. -/
  rounds : ∀ before target rest, atoms = before ++ .jump target :: rest →
    target ∈ program.loopLabels 0 → ∃ earlier left right comparison exit inner after,
      before = earlier ++ .label target :: .test left right comparison exit :: inner ∧
        rest = .label exit :: after
  /-- The walk comes to its end with the optimised atoms. -/
  walk : ∃ last, Reaches Folding.next? ⟨{}, [], atoms⟩ last ∧ last.ahead = [] ∧
    last.code = optimize atoms
  /-- At no label that the walk comes to does it find a loop that is not regular. -/
  labels : ∀ folding name rest, Reaches Folding.next? ⟨{}, [], atoms⟩ folding →
    folding.ahead = .label name :: rest →
      isLoopHead name rest = true ∨ name ∉ jumpTargetsOf rest
  /-- At no test that the walk comes to does it find a branch that is entered from
  elsewhere. -/
  entries : ∀ folding left right comparison target rest,
    Reaches Folding.next? ⟨{}, [], atoms⟩ folding →
    folding.ahead = .test left right comparison target :: rest →
      ∃ branch, Branch.of? folding.walked left right comparison target rest = some branch ∧
        branch.isEnteredElsewhere = false

/-- Of the labels of a program, the heads of loops are those that are named as such. -/
theorem mem_loopLabels_of_mem {program : Statement} (h : name ∈ labelsOf program.atoms) :
    name ∈ program.loopLabels 0 ↔ NamesLoop name := by
  rw [Statement.atoms, labelsOf_lower] at h
  rw [mem_loopLabels_iff]
  exact and_iff_right h

/-- A list without a label twice has no label both before an atom and behind it. -/
theorem not_mem_labelsOf_before {before : List Atom} {atom : Atom}
    (h : (labelsOf (before ++ atom :: rest)).Nodup) (hrest : name ∈ labelsOf rest) :
    name ∉ labelsOf before := by
  intro hbefore
  rw [labelsOf_append, labelsOf_cons] at h
  exact (List.nodup_append.mp h).2.2 name hbefore name (List.mem_append_right _ hrest) rfl

/-- A jump of a program goes back to the head of its loop or ahead. -/
theorem backOrAheadAt_atoms {program : Statement} {before : List Atom} {atom : Atom}
    (h : program.atoms = before ++ atom :: rest) : BackOrAheadAt before.reverse atom rest := by
  have hatoms : Everywhere BackOrAheadAt [] [] program.atoms :=
    everywhere_backOrAheadAt_lower program 0
  simpa using everywhere_iff.mp hatoms before atom rest h

/-- **The loops of a program stand in its atoms as the walk expects them.** -/
theorem loopsAgree_atoms (program : Statement) : LoopsAgree program program.atoms := by
  have hregular := regular_atoms program
  have hlabels : (labelsOf program.atoms).Nodup := nodup_labelsOf_lower program 0
  have hwalk : ∀ folding, Reaches Folding.next? ⟨{}, [], program.atoms⟩ folding →
      Regular (folding.walked.reverse ++ folding.ahead) :=
    fun folding => Regular.reaches (show Regular (Folding.code ⟨{}, [], _⟩) from hregular)
  -- what the walk has in hand is regular at every step, so its parts are read off as those of
  -- the whole list are
  constructor
  case tests =>
    intro before left right comparison target rest heq
    rw [heq] at hregular hlabels
    obtain ⟨body, after, hsplit, -⟩ : Sealed before.reverse target rest := hregular.regularAt
    have hrest : target ∈ labelsOf rest := by simp [(splitAtLabel?_eq_some hsplit).1]
    exact ⟨hrest, not_mem_labelsOf_before hlabels hrest⟩
  case branches =>
    intro before left right comparison target rest heq
    rw [heq] at hregular
    exact sealed_iff.mp hregular.regularAt
  case loops =>
    intro name hname
    rw [← mem_labelsOf, Statement.atoms, labelsOf_lower]
    exact (mem_loopLabels_iff.mp hname).1
  case heads =>
    intro before name rest heq
    rw [mem_loopLabels_of_mem (mem_labelsOf.mpr (by simp [heq]))]
    rw [heq] at hregular
    refine ⟨namesLoop_of_isLoopHead, fun hloop => ?_⟩
    exact (hregular.regularAt).resolve_right fun h => h.1 hloop
  case jumps =>
    intro before target rest heq
    have hclosed : Closed program.atoms := closed_lower program 0
    rw [mem_loopLabels_of_mem (hclosed.2 target (by simp [heq]))]
    rw [heq] at hlabels
    have hdisjoint : target ∈ labelsOf rest → target ∉ labelsOf before :=
      not_mem_labelsOf_before hlabels
    rcases backOrAheadAt_atoms heq with
      ⟨hloop, inner, left, right, comparison, exit, earlier, after, hback, -⟩ | ⟨hnot, hrest⟩
    · have hbefore : target ∈ labelsOf before := by
        rw [← List.mem_reverse, ← labelsOf_reverse, hback]
        simp
      exact ⟨iff_of_true hbefore hloop,
        iff_of_false (fun hrest => hdisjoint hrest hbefore) (not_not_intro hloop)⟩
    · exact ⟨iff_of_false (hdisjoint hrest) hnot, iff_of_true hrest hnot⟩
  case rounds =>
    intro before target rest heq hloop
    rcases backOrAheadAt_atoms heq with
      ⟨-, inner, left, right, comparison, exit, earlier, after, hbefore, hrest⟩ | ⟨hnot, -⟩
    · refine ⟨earlier.reverse, left, right, comparison, exit, inner.reverse, after, ?_, hrest⟩
      rw [← List.reverse_reverse before, hbefore]
      simp
    · exact (hnot (mem_loopLabels_iff.mp hloop).2).elim
  case walk =>
    rw [optimize, removeUnreachable_atoms]
    exact Folding.reaches_finish {} [] program.atoms
  case labels =>
    intro folding name rest hreach hahead
    have hhere := hwalk folding hreach
    rw [hahead] at hhere
    exact hhere.regularAt.imp_right And.right
  case entries =>
    intro folding left right comparison target rest hreach hahead
    have hhere := hwalk folding hreach
    rw [hahead] at hhere
    have hsealed := hhere.regularAt
    rw [List.reverse_reverse] at hsealed
    exact sealed_iff.mp hsealed

/-- **Loops keep their shape.**  Whatever tokens compile, the loops of their program stand
in the atoms as the walk expects them. -/
theorem compileTokens_loops_agree {tokens : List (Located Token)} {atoms : List Atom}
    (h : compileTokens tokens = .ok atoms) :
    ∃ program, Program.parse tokens = .ok program ∧ atoms = program.atoms ∧
      LoopsAgree program atoms := by
  obtain ⟨program, hprogram, rfl⟩ := parse_of_compileTokens h
  exact ⟨program, hprogram, rfl, loopsAgree_atoms program⟩

/-- A `while` loop around a `for` loop and two pairs of branches, with names and numbers
spelled like the labels of loops. -/
theorem compileTokens_loops_agree_misspelledLoop :
    ∃ program, (compileTokens misspelledLoop).toOption = some program.atoms ∧
      program.loopLabels 0 = ["before_while_0", "before_for_4"] ∧
      LoopsAgree program program.atoms := by
  have hatoms : (compileTokens misspelledLoop).toOption.isSome = true := by decide +kernel
  obtain ⟨atoms, hatoms⟩ := Option.isSome_iff_exists.mp hatoms
  obtain ⟨program, hprogram, rfl, hagree⟩ :=
    compileTokens_loops_agree (eq_ok_of_toOption hatoms)
  refine ⟨program, hatoms, ?_, hagree⟩
  have hloops : (Program.parse misspelledLoop).toOption.map (Statement.loopLabels 0) =
      some ["before_while_0", "before_for_4"] := by
    decide +kernel
  rw [hprogram] at hloops
  exact Option.some.inj hloops

end AtomCompiler
