import AtomCompiler.Proofs.Walk

/-!
# Folding the branches of laid out statements

The walk that deletes branches goes over the atoms of a statement and leaves the
layout of another one, which does the same from every store that the walk's
values are right about.

* `Folded` — what is said of one statement and the walk over its atoms;
* `Foldable` — the walk does so wherever it comes from and whatever follows;
* `foldable_skip`, `foldable_seq`, `foldable_assign`, `foldable_ifThen`,
  `foldable_ifElse`, `foldable_whileLoop` — one lemma for each kind of statement.
-/

namespace AtomCompiler

variable {convention : Convention}

/-! ## Statements and what the walk leaves of them -/

/-- The walk over the atoms of a statement leaves the atoms of another one.

A label that is pending all the way through means that the atoms may or may not
have been run; then the walk has learned nothing new. -/
structure Folded (convention : Convention) (statement : Statement) (names : List String)
    (walk next : Walk) (result : Statement) : Prop where
  executes_iff : ∀ {start finish}, walk.values.Agrees convention start →
    (Executes convention result start finish ↔ Executes convention statement start finish)
  agrees : ∀ {start finish}, walk.values.Agrees convention start →
    Executes convention statement start finish → next.values.Agrees convention finish
  pending : ∀ {name}, name ∈ walk.pending → name ∉ names → name ∈ next.pending
  forgets : ∀ {name}, name ∈ walk.pending → name ∉ names → walk.Forgets convention next
  seen : ∀ {name}, name ∈ next.seen → name ∈ walk.seen ∨ name ∈ names

/-- Only what a statement does counts, and more labels may be its own. -/
theorem Folded.congr {statement other result : Statement} {names otherNames : List String}
    {walk next : Walk} (h : Folded convention statement names walk next result)
    (hsame : ∀ {start finish}, walk.values.Agrees convention start →
      (Executes convention statement start finish ↔ Executes convention other start finish))
    (hnames : ∀ name ∈ names, name ∈ otherNames) :
    Folded convention other otherNames walk next result where
  executes_iff := fun hstart => (h.executes_iff hstart).trans (hsame hstart)
  agrees := fun hstart hother => h.agrees hstart ((hsame hstart).mpr hother)
  pending := fun hname hnot => h.pending hname fun hmem => hnot (hnames _ hmem)
  forgets := fun hname hnot => h.forgets hname fun hmem => hnot (hnames _ hmem)
  seen := fun hname => (h.seen hname).imp_right (hnames _)

/-- From the walk over a statement and what follows it, some atoms of the
statement are kept, and they lay out a statement that does the same. -/
def FoldsTo (convention : Convention) (statement : Statement) (atoms : List Atom) (walk : Walk)
    (walked rest folded : List Atom) : Prop :=
  ∃ result kept next,
    folded = Folding.finish next (kept.reverse ++ walked) rest ∧
    Settled (kept.reverse ++ walked) ∧ Layout result kept ∧ kept.Sublist atoms ∧
    Folded convention statement (labelsOf atoms) walk next result

/-- Wherever the walk comes from and whatever follows, it leaves the layout of a
statement that does the same. -/
def Foldable (convention : Convention) (statement : Statement) (atoms : List Atom) : Prop :=
  ∀ walk walked rest, Settled walked → (∀ name ∈ labelsOf atoms, name ∉ walk.seen) →
    FoldsTo convention statement atoms walk walked rest
      (Folding.finish walk walked (atoms ++ rest))

/-- Only what a statement does decides whether it is foldable. -/
theorem Foldable.congr {statement other : Statement} {atoms : List Atom}
    (h : Foldable convention statement atoms)
    (hsame : ∀ start finish, Executes convention statement start finish ↔
      Executes convention other start finish) : Foldable convention other atoms := by
  intro walk walked rest hsettled hfresh
  obtain ⟨result, kept, next, hfinish, hkept, hlayout, hsublist, hfolded⟩ :=
    h walk walked rest hsettled hfresh
  exact ⟨result, kept, next, hfinish, hkept, hlayout, hsublist,
    hfolded.congr (fun _ => hsame _ _) fun _ hname => hname⟩

/-- Where there are no atoms the walk does nothing. -/
theorem foldable_skip : Foldable convention .skip [] := by
  intro walk walked rest hsettled _
  refine ⟨.skip, [], walk, rfl, hsettled, .skip, List.Sublist.refl [], ?_⟩
  exact {
    executes_iff := fun _ => Iff.rfl
    agrees := by
      intro start finish hstart hskip
      cases hskip
      exact hstart
    pending := fun hname _ => hname
    forgets := fun _ _ => Walk.Forgets.refl walk
    seen := Or.inl }

/-- Two statements that can be folded can be folded one after the other.  The walk over the second
one starts from what the first one left, and none of its labels has been seen. -/
theorem foldable_seq {first rest : Statement} {firstAtoms restAtoms : List Atom}
    (hlabels : (labelsOf (firstAtoms ++ restAtoms)).Nodup)
    (hfirst : Foldable convention first firstAtoms) (hrest : Foldable convention rest restAtoms) :
    Foldable convention (.seq first rest) (firstAtoms ++ restAtoms) := by
  intro walk walked after hsettled hfresh
  rw [labelsOf_append, List.nodup_append] at hlabels
  simp only [labelsOf_append, List.mem_append] at hfresh
  obtain ⟨result, kept, middle, hfinish, hkept, hlayout, hsublist, hfolded⟩ :=
    hfirst walk walked (restAtoms ++ after) hsettled fun name hname => hfresh name (Or.inl hname)
  -- the labels are distinct, so the walk has seen none of the second part
  have hseen : ∀ name ∈ labelsOf restAtoms, name ∉ middle.seen := by
    intro name hname hmem
    rcases hfolded.seen hmem with hmem | hmem
    · exact hfresh name (Or.inr hname) hmem
    · exact hlabels.2.2 name hmem name hname rfl
  obtain ⟨result', kept', next, hfinish', hkept', hlayout', hsublist', hfolded'⟩ :=
    hrest middle (kept.reverse ++ walked) after hkept hseen
  refine ⟨.seq result result', kept ++ kept', next, ?_, ?_, .seq hlayout hlayout',
    hsublist.append hsublist', ?_⟩
  · rw [List.append_assoc, hfinish, hfinish']
    simp
  · simpa using hkept'
  exact {
    -- a store that the walk is right about leads to one that it is right about in between
    executes_iff := by
      intro start finish hstart
      constructor
      · intro h
        cases h with
        | seq hone htwo =>
            have hone := (hfolded.executes_iff hstart).mp hone
            exact .seq hone ((hfolded'.executes_iff (hfolded.agrees hstart hone)).mp htwo)
      · intro h
        cases h with
        | seq hone htwo =>
            have hmiddle := hfolded.agrees hstart hone
            exact .seq ((hfolded.executes_iff hstart).mpr hone)
              ((hfolded'.executes_iff hmiddle).mpr htwo)
    agrees := by
      intro start finish hstart h
      cases h with
      | seq hone htwo => exact hfolded'.agrees (hfolded.agrees hstart hone) htwo
    pending := by
      intro name hname hnot
      rw [labelsOf_append, List.mem_append, not_or] at hnot
      exact hfolded'.pending (hfolded.pending hname hnot.1) hnot.2
    forgets := by
      intro name hname hnot
      rw [labelsOf_append, List.mem_append, not_or] at hnot
      exact (hfolded.forgets hname hnot.1).trans
        (hfolded'.forgets (hfolded.pending hname hnot.1) hnot.2)
    seen := by
      intro name hname
      rw [labelsOf_append, List.mem_append]
      rcases hfolded'.seen hname with hname | hname
      · rcases hfolded.seen hname with hname | hname
        · exact Or.inl hname
        · exact Or.inr (Or.inl hname)
      · exact Or.inr (Or.inr hname) }

/-! ## Assignments -/

/-- What an assignment does, in terms of what is known about its atom. -/
theorem Values.Agrees.run (hnegate : convention.negate = Neg.neg) {values : Values}
    {store : Store} (h : values.Agrees convention store) {assignment : Assignment}
    (hlegible : assignment.IsLegible) :
    ∃ value, assignment.run convention store = store.set assignment.target value ∧
      ∀ number, values.assigned? assignment.lower = some number → value = number := by
  obtain ⟨value, hvalue, hrun⟩ :=
    h.runAtom?_assigned hnegate assignment.assigned?_lower [assignment.lower] 0
  have hstep : AtomState.step? convention [assignment.lower] ⟨0, store⟩ =
      some ⟨0 + 1, assignment.run convention store⟩ :=
    step?_assignment hlegible (Placed.whole [assignment.lower])
  have heq : some (AtomState.mk (0 + 1) (store.set assignment.target value)) =
      some ⟨0 + 1, assignment.run convention store⟩ := hrun.symm.trans hstep
  exact ⟨value, (congrArg AtomState.store (Option.some.inj heq)).symm, hvalue⟩

/-- The walk passes an assignment and keeps it. -/
theorem Folding.finish_assignment (walk : Walk) (walked : List Atom) (assignment : Assignment)
    (rest : List Atom) :
    finish walk walked (assignment.lower :: rest) =
      finish (walk.passAssignment assignment.lower assignment.target)
        (assignment.lower :: walked) rest := by
  rw [finish_cons]
  unfold Assignment.lower
  split <;> rfl

/-- An assignment is no label, so no loop begins behind it. -/
theorem settled_assignment (assignment : Assignment) (walked : List Atom) :
    Settled (assignment.lower :: walked) := by
  intro name earlier heq
  have hlabel := congrArg Atom.label? (List.cons.inj heq).1
  simp at hlabel

/-- An assignment is kept, and what is known of its target afterwards is right. -/
theorem foldable_assign (hnegate : convention.negate = Neg.neg) {assignment : Assignment}
    (hlegible : assignment.IsLegible) :
    Foldable convention (.assign assignment) [assignment.lower] := by
  intro walk walked rest _ _
  refine ⟨.assign assignment, [assignment.lower], _,
    Folding.finish_assignment walk walked assignment rest, settled_assignment assignment walked,
    .assign hlegible, List.Sublist.refl _, ?_⟩
  exact {
    executes_iff := fun _ => Iff.rfl
    agrees := by
      intro start finish hstart h
      cases h
      obtain ⟨value, hrun, hvalue⟩ := hstart.run hnegate hlegible
      rw [hrun]
      apply hstart.set
      intro number hnumber
      split at hnumber
      · exact hvalue number hnumber
      · cases hnumber
    pending := fun hname _ => hname
    forgets := by
      intro name hname _ store hstore
      have hcertain : walk.certain = false := by
        unfold Walk.certain
        cases hpending : walk.pending with
        | nil => simp [hpending] at hname
        | cons _ _ => rfl
      unfold Walk.passAssignment
      simp only [hcertain, Bool.false_eq_true, if_false]
      exact hstore.set_none assignment.target
    seen := Or.inl }

/-! ## Branches -/

/-- The walk goes into the body of a test, as far as labels and stores are
concerned. -/
structure Walk.Enters (convention : Convention) (walk inner : Walk) : Prop where
  forgets : walk.Forgets convention inner
  pending : ∀ {name}, name ∈ walk.pending → name ∈ inner.pending
  seen : inner.seen = walk.seen

theorem Walk.Enters.refl (walk : Walk) : walk.Enters convention walk :=
  ⟨Walk.Forgets.refl walk, fun h => h, rfl⟩

/-- Going into a body forgets what the body assigns, and waits for the label behind it. -/
theorem Walk.enters_enter (walk : Walk) (body : List Atom) (target : String) :
    walk.Enters convention (walk.enter body target) :=
  ⟨walk.forgets_enter body target, fun h => Walk.mem_pending_enter h body, rfl⟩

/-- A condition has the outcome that is known of its test. -/
theorem Values.Agrees.condition_holds {values : Values} {store : Store}
    (h : values.Agrees convention store) {condition : Condition} (hlegible : condition.IsLegible)
    {outcome : Bool} (houtcome : values.outcome? condition.left.operand condition.comparison
      condition.right.operand = some outcome) : condition.holds convention store = outcome := by
  rw [Condition.holds, ← Factor.value_operand hlegible.1, ← Factor.value_operand hlegible.2]
  exact h.holds_of_outcome? houtcome

/-- A label behind a statement. -/
theorem Folded.passLabel {statement result : Statement} {names : List String} {walk next : Walk}
    (h : Folded convention statement names walk next result) (name : String) (rest : List Atom) :
    Folded convention statement (names ++ [name]) walk (next.passLabel name rest) result where
  executes_iff := h.executes_iff
  agrees := fun hstart hexecutes => next.forgets_passLabel name rest _ (h.agrees hstart hexecutes)
  pending := by
    intro other hother hnot
    rw [List.mem_append, not_or, List.mem_singleton] at hnot
    exact Walk.mem_pending_passLabel (h.pending hother hnot.1) hnot.2 rest
  forgets := by
    intro other hother hnot
    rw [List.mem_append, not_or] at hnot
    exact (h.forgets hother hnot.1).trans (next.forgets_passLabel name rest)
  seen := by
    intro other hother
    rw [List.mem_append, List.mem_singleton]
    rcases Walk.mem_seen_passLabel.mp hother with hother | hother
    · exact Or.inr (Or.inr hother)
    · exact (h.seen hother).imp_right Or.inl

/-- A branch that is entered: its label is pending, or its test is known to
hold. -/
theorem Folded.ifThen {condition : Condition} {body result : Statement} {names : List String}
    {after : String} {walk inner next : Walk} (henters : walk.Enters convention inner)
    (hskip : after ∈ inner.pending ∨ ∀ {start}, walk.values.Agrees convention start →
      condition.holds convention start = true) (hafter : after ∉ names)
    (h : Folded convention body names inner next result) :
    Folded convention (.ifThen condition body) names walk next (.ifThen condition result) where
  executes_iff := by
    intro start finish hstart
    have hinner := henters.forgets start hstart
    constructor
    · intro hexecutes
      cases hexecutes with
      | ifThenTrue hholds hbody => exact .ifThenTrue hholds ((h.executes_iff hinner).mp hbody)
      | ifThenFalse hfails => exact .ifThenFalse hfails
    · intro hexecutes
      cases hexecutes with
      | ifThenTrue hholds hbody => exact .ifThenTrue hholds ((h.executes_iff hinner).mpr hbody)
      | ifThenFalse hfails => exact .ifThenFalse hfails
  agrees := by
    intro start finish hstart hexecutes
    have hinner := henters.forgets start hstart
    cases hexecutes with
    | ifThenTrue _ hbody => exact h.agrees hinner hbody
    | ifThenFalse hfails =>
        rcases hskip with hpending | hholds
        · exact h.forgets hpending hafter start hinner
        · simp [hholds hstart] at hfails
  pending := fun hname hnot => h.pending (henters.pending hname) hnot
  forgets := fun hname hnot => henters.forgets.trans (h.forgets (henters.pending hname) hnot)
  seen := by
    intro name hname
    rw [← henters.seen]
    exact h.seen hname

/-- A test is no label, so no loop begins behind it. -/
theorem settled_test (condition : Condition) (target : String) (walked : List Atom) :
    Settled (condition.lower target :: walked) := by
  intro name earlier heq
  exact absurd (List.cons.inj heq).1 (by simp [Condition.lower])

/-- No loop begins behind a label that is not named as the head of one. -/
theorem settled_label {name : String} (h : ∀ target, isLoopPair name target = false)
    (walked : List Atom) : Settled (.label name :: walked) := by
  intro other earlier heq target
  obtain ⟨heq, -⟩ := List.cons.inj heq
  obtain rfl := Atom.label.inj heq
  exact h target

/-- A statement that is known to change nothing may be left out. -/
theorem folded_skip {statement : Statement} {names : List String} {walk : Walk}
    (hskip : ∀ {start finish}, walk.values.Agrees convention start →
      (Executes convention statement start finish ↔ finish = start)) :
    Folded convention statement names walk walk .skip where
  executes_iff := by
    intro start finish hstart
    rw [hskip hstart]
    constructor
    · intro h
      cases h
      rfl
    · rintro rfl
      exact .skip finish
  agrees := by
    intro start finish hstart h
    rw [hskip hstart] at h
    exact h ▸ hstart
  pending := fun hname _ => hname
  forgets := fun _ _ => Walk.Forgets.refl walk
  seen := Or.inl

section IfThen

variable {condition : Condition} {body : Statement} {atoms : List Atom} {after : String}
  {walk : Walk} {walked : List Atom}

/-- The walk goes on into the body of a branch. -/
theorem foldsTo_ifThen {inner : Walk} (hlegible : condition.IsLegible)
    (hafter : ∀ target, isLoopPair after target = false) (hnot : after ∉ labelsOf atoms)
    (hfresh : ∀ name ∈ labelsOf atoms, name ∉ walk.seen) (hbody : Foldable convention body atoms)
    (henters : walk.Enters convention inner)
    (hskip : after ∈ inner.pending ∨ ∀ {start}, walk.values.Agrees convention start →
      condition.holds convention start = true) (rest : List Atom) :
    FoldsTo convention (.ifThen condition body)
      (condition.lower after :: (atoms ++ [.label after])) walk walked rest
      (Folding.finish inner (condition.lower after :: walked) (atoms ++ .label after :: rest)) := by
  rw [← henters.seen] at hfresh
  obtain ⟨result, kept, next, hfinish, -, hlayout, hsublist, hfolded⟩ :=
    hbody inner (condition.lower after :: walked) (.label after :: rest)
      (settled_test condition after walked) hfresh
  refine ⟨.ifThen condition result, condition.lower after :: (kept ++ [.label after]),
    next.passLabel after rest, ?_, ?_, .ifThen after hlegible hlayout,
    (hsublist.append (List.Sublist.refl _)).cons_cons _, ?_⟩
  · rw [hfinish, Folding.finish_label]
    simp
  · simpa using settled_label hafter _
  · simpa using (hfolded.ifThen henters hskip hnot).passLabel after rest

/-- A branch can be folded if its body can: it is entered, deleted, or left open, by what is known
of its test. -/
theorem foldable_ifThen (hlegible : condition.IsLegible)
    (hafter : ∀ target, isLoopPair after target = false) (hnot : after ∉ labelsOf atoms)
    (hbody : Foldable convention body atoms) :
    Foldable convention (.ifThen condition body)
      (condition.lower after :: (atoms ++ [.label after])) := by
  intro walk walked rest hsettled hfresh
  have hfresh : ∀ name ∈ labelsOf atoms, name ∉ walk.seen :=
    fun name hname => hfresh name (by simp [hname])
  rw [List.cons_append, List.append_assoc, List.singleton_append]
  rcases Folding.finish_test hsettled hnot walk rest with
    ⟨hfalse, hstarted⟩ | ⟨htrue, hstarted⟩ | hstarted
  · refine ⟨.skip, [], walk, hstarted, hsettled, .skip, List.nil_sublist _, folded_skip ?_⟩
    intro start finish hstart
    have hfails := hstart.condition_holds hlegible hfalse
    constructor
    · intro h
      cases h with
      | ifThenTrue hholds _ => simp [hfails] at hholds
      | ifThenFalse _ => rfl
    · rintro rfl
      exact .ifThenFalse hfails
  · rw [hstarted]
    exact foldsTo_ifThen hlegible hafter hnot hfresh hbody (Walk.Enters.refl walk)
      (Or.inr fun hstart => hstart.condition_holds hlegible htrue) rest
  · rw [hstarted]
    exact foldsTo_ifThen hlegible hafter hnot hfresh hbody (walk.enters_enter atoms after)
      (Or.inl (walk.target_mem_pending_enter atoms after)) rest

end IfThen

section IfElse

variable {condition : Condition} {body other : Statement} {atoms otherAtoms : List Atom}
  {beforeElse after : String} {walk : Walk} {walked : List Atom}

/-- Two branches that are both walked over.  Behind the jump at the end of the
first one its label is pending, so the walk over the second one learns nothing;
the second one begins with what was known before the first. -/
theorem Folded.ifElse {result otherResult : Statement} {names otherNames : List String}
    {inner middle second next : Walk} (henters : walk.Enters convention inner)
    (hskip : beforeElse ∈ inner.pending ∨ ∀ {start}, walk.values.Agrees convention start →
      condition.holds convention start = true)
    (hnames : beforeElse ∉ names) (hotherNames : after ∉ otherNames)
    (h : Folded convention body names inner middle result)
    (hsecond : middle.Forgets convention second)
    (hpending : ∀ {name}, name ∈ middle.pending → name ≠ beforeElse → name ∈ second.pending)
    (hafter : after ∈ second.pending)
    (hseen : ∀ {name}, name ∈ second.seen → name = beforeElse ∨ name ∈ middle.seen)
    (hother : Folded convention other otherNames second next otherResult) :
    Folded convention (.ifElse condition body other) (names ++ beforeElse :: otherNames) walk next
      (.ifElse condition result otherResult) := by
  -- the second branch starts right: its label was waited for, or it is never taken
  have hfails : ∀ {start}, walk.values.Agrees convention start →
      condition.holds convention start = false → second.values.Agrees convention start := by
    intro start hstart hfalse
    rcases hskip with hmem | hholds
    · have hinner := henters.forgets start hstart
      exact hsecond start (h.forgets hmem hnames start hinner)
    · simp [hholds hstart] at hfalse
  -- a label that is waited for from before is waited for through both branches
  have hchain : ∀ {name}, name ∈ walk.pending → name ∉ names ++ beforeElse :: otherNames →
      name ∈ second.pending ∧ name ∉ otherNames ∧ walk.Forgets convention second := by
    intro name hname hnot
    rw [List.mem_append, not_or, List.mem_cons, not_or] at hnot
    have hinner := henters.pending hname
    exact ⟨hpending (h.pending hinner hnot.1) hnot.2.1, hnot.2.2,
      (henters.forgets.trans (h.forgets hinner hnot.1)).trans hsecond⟩
  exact {
    executes_iff := by
      intro start finish hstart
      have hinner := henters.forgets start hstart
      constructor
      · intro hexecutes
        cases hexecutes with
        | ifElseTrue hholds hbody => exact .ifElseTrue hholds ((h.executes_iff hinner).mp hbody)
        | ifElseFalse hfalse hrest =>
            exact .ifElseFalse hfalse ((hother.executes_iff (hfails hstart hfalse)).mp hrest)
      · intro hexecutes
        cases hexecutes with
        | ifElseTrue hholds hbody => exact .ifElseTrue hholds ((h.executes_iff hinner).mpr hbody)
        | ifElseFalse hfalse hrest =>
            exact .ifElseFalse hfalse ((hother.executes_iff (hfails hstart hfalse)).mpr hrest)
    agrees := by
      intro start finish hstart hexecutes
      cases hexecutes with
      | ifElseTrue _ hbody =>
          have hmiddle := h.agrees (henters.forgets start hstart) hbody
          exact hother.forgets hafter hotherNames finish (hsecond finish hmiddle)
      | ifElseFalse hfalse hrest => exact hother.agrees (hfails hstart hfalse) hrest
    pending := by
      intro name hname hnot
      obtain ⟨hmem, hnotOther, -⟩ := hchain hname hnot
      exact hother.pending hmem hnotOther
    forgets := by
      intro name hname hnot
      obtain ⟨hmem, hnotOther, hforgets⟩ := hchain hname hnot
      exact hforgets.trans (hother.forgets hmem hnotOther)
    seen := by
      intro name hname
      rw [List.mem_append, List.mem_cons, ← henters.seen]
      rcases hother.seen hname with hname | hname
      · rcases hseen hname with hname | hname
        · exact Or.inr (Or.inr (Or.inl hname))
        · exact (h.seen hname).imp_right Or.inl
      · exact Or.inr (Or.inr (Or.inr hname)) }

/-- The atoms of two branches. -/
abbrev ifElseAtoms (condition : Condition) (atoms otherAtoms : List Atom)
    (beforeElse after : String) : List Atom :=
  condition.lower beforeElse ::
    (atoms ++ .jump after :: .label beforeElse :: (otherAtoms ++ [.label after]))

/-- The walk goes on into the first of two branches. -/
theorem foldsTo_ifElse {inner : Walk} (hlegible : condition.IsLegible)
    (hloop : ∀ target, isLoopPair after target = false)
    (hloopElse : ∀ target, isLoopPair beforeElse target = false)
    (hlabels : (labelsOf atoms ++ beforeElse :: (labelsOf otherAtoms ++ [after])).Nodup)
    (hfresh : ∀ name ∈ labelsOf atoms ++ beforeElse :: (labelsOf otherAtoms ++ [after]),
      name ∉ walk.seen)
    (hbody : Foldable convention body atoms) (hother : Foldable convention other otherAtoms)
    (henters : walk.Enters convention inner)
    (hskip : beforeElse ∈ inner.pending ∨ ∀ {start}, walk.values.Agrees convention start →
      condition.holds convention start = true) (rest : List Atom) :
    FoldsTo convention (.ifElse condition body other)
      (ifElseAtoms condition atoms otherAtoms beforeElse after) walk walked rest
      (Folding.finish inner (condition.lower beforeElse :: walked)
        (atoms ++ .jump after :: .label beforeElse :: (otherAtoms ++ .label after :: rest))) := by
  obtain ⟨hnodup, htail, hdisjoint⟩ := List.nodup_append.mp hlabels
  obtain ⟨hElse, htail⟩ := List.nodup_cons.mp htail
  obtain ⟨hotherNodup, -, hafterDisjoint⟩ := List.nodup_append.mp htail
  have hElseBody : beforeElse ∉ labelsOf atoms :=
    fun hmem => hdisjoint beforeElse hmem beforeElse (by simp) rfl
  have hafterBody : after ∉ labelsOf atoms :=
    fun hmem => hdisjoint after hmem after (by simp) rfl
  have hafterOther : after ∉ labelsOf otherAtoms :=
    fun hmem => hafterDisjoint after hmem after (by simp) rfl
  have hafterElse : after ≠ beforeElse := fun heq => hElse (by simp [heq])
  -- the first branch
  obtain ⟨result, kept, middle, hfinish, -, hlayout, hsublist, hfolded⟩ :=
    hbody inner (condition.lower beforeElse :: walked)
      (.jump after :: .label beforeElse :: (otherAtoms ++ .label after :: rest))
      (settled_test condition beforeElse walked) (by
        intro name hname
        rw [henters.seen]
        exact hfresh name (List.mem_append_left _ hname))
  have hmiddle : ∀ {name}, name ∈ beforeElse :: (labelsOf otherAtoms ++ [after]) →
      name ∉ middle.seen := by
    intro name hname hmem
    rcases hfolded.seen hmem with hmem | hmem
    · rw [henters.seen] at hmem
      exact hfresh name (List.mem_append_right _ hname) hmem
    · exact hdisjoint name hmem name hname rfl
  -- the jump over the second one
  let second := (middle.passJump after).passLabel beforeElse (otherAtoms ++ .label after :: rest)
  have hsecond : middle.Forgets convention second :=
    (middle.forgets_passJump after).trans (Walk.forgets_passLabel _ _ _)
  have hpending : ∀ {name}, name ∈ middle.pending → name ≠ beforeElse →
      name ∈ second.pending := by
    intro name hname hne
    exact Walk.mem_pending_passLabel (Walk.mem_pending_passJump hname) hne _
  have hafter : after ∈ second.pending :=
    Walk.mem_pending_passLabel (Walk.target_mem_pending_passJump (hmiddle (by simp))) hafterElse _
  have hseen : ∀ {name}, name ∈ second.seen → name = beforeElse ∨ name ∈ middle.seen := by
    intro name hname
    simpa [second] using hname
  -- the second branch
  obtain ⟨otherResult, otherKept, next, hfinish', -, hlayout', hsublist', hfolded'⟩ :=
    hother second (.label beforeElse :: .jump after :: (kept.reverse ++
      condition.lower beforeElse :: walked)) (.label after :: rest) (settled_label hloopElse _) (by
        intro name hname hmem
        rcases hseen hmem with heq | hmem
        · exact hElse (by simp [← heq, hname])
        · exact hmiddle (by simp [hname]) hmem)
  refine ⟨.ifElse condition result otherResult,
    ifElseAtoms condition kept otherKept beforeElse after, next.passLabel after rest, ?_, ?_,
    .ifElse beforeElse after hlegible hlayout hlayout', ?_, ?_⟩
  · rw [hfinish, Folding.finish_jump, Folding.finish_label, hfinish', Folding.finish_label]
    simp
  · simpa using settled_label hloop _
  · exact (hsublist.append
      ((hsublist'.append (List.Sublist.refl _)).cons_cons _ |>.cons_cons _)).cons_cons _
  · have hboth := hfolded.ifElse henters hskip hElseBody hafterOther hsecond hpending hafter hseen
      hfolded'
    simpa using hboth.passLabel after rest

/-- Two branches can be folded if their bodies can.  If the test is known to fail, only
the second one is left; else both are walked over. -/
theorem foldable_ifElse (hlegible : condition.IsLegible)
    (hloop : ∀ target, isLoopPair after target = false)
    (hloopElse : ∀ target, isLoopPair beforeElse target = false)
    (hlabels : (labelsOf atoms ++ beforeElse :: (labelsOf otherAtoms ++ [after])).Nodup)
    (hbody : Foldable convention body atoms) (hother : Foldable convention other otherAtoms) :
    Foldable convention (.ifElse condition body other)
      (ifElseAtoms condition atoms otherAtoms beforeElse after) := by
  intro walk walked rest hsettled hfresh
  have hElseBody : beforeElse ∉ labelsOf (atoms ++ [.jump after]) := by
    have hdisjoint := (List.nodup_append.mp hlabels).2.2
    simpa using fun hmem => hdisjoint beforeElse hmem beforeElse (by simp) rfl
  have hfresh : ∀ name ∈ labelsOf atoms ++ beforeElse :: (labelsOf otherAtoms ++ [after]),
      name ∉ walk.seen := by simpa using hfresh
  have hahead : ifElseAtoms condition atoms otherAtoms beforeElse after ++ rest =
      condition.lower beforeElse :: ((atoms ++ [.jump after]) ++ .label beforeElse ::
        (otherAtoms ++ .label after :: rest)) := by simp
  have hinside : (atoms ++ [.jump after]) ++ .label beforeElse ::
      (otherAtoms ++ .label after :: rest) =
        atoms ++ .jump after :: .label beforeElse :: (otherAtoms ++ .label after :: rest) := by
    simp
  rw [hahead]
  -- the test fails, holds, or is not known; where both branches stay it does not matter which
  rcases Folding.finish_test hsettled hElseBody walk (otherAtoms ++ .label after :: rest) with
    ⟨hfalse, hstarted⟩ | ⟨htrue, hstarted⟩ | hstarted
  · obtain ⟨result, kept, next, hfinish, -, hlayout, hsublist, hfolded⟩ :=
      hother walk walked (.label after :: rest) hsettled fun name hname =>
        hfresh name (by simp [hname])
    refine ⟨result, kept ++ [.label after], next.passLabel after rest, ?_, ?_,
      .labelled after hlayout, ?_, ?_⟩
    · rw [hstarted, hfinish, Folding.finish_label]
      simp
    · simpa using settled_label hloop _
    · have htail := hsublist.append (List.Sublist.refl [Atom.label after])
      exact ((htail.cons _ |>.cons _).trans (List.sublist_append_right _ _)).cons _
    · refine (hfolded.passLabel after rest).congr ?_ ?_
      · intro start finish hstart
        have hfails := hstart.condition_holds hlegible hfalse
        constructor
        · exact .ifElseFalse hfails
        · intro h
          cases h with
          | ifElseTrue hholds _ => simp [hfails] at hholds
          | ifElseFalse _ hrest => exact hrest
      · intro name hname
        simp only [List.mem_append, List.mem_singleton] at hname
        rcases hname with hname | hname <;> simp [hname]
  · rw [hstarted, hinside]
    exact foldsTo_ifElse hlegible hloop hloopElse hlabels hfresh hbody hother
      (Walk.Enters.refl walk) (Or.inr fun hstart => hstart.condition_holds hlegible htrue) rest
  · rw [hstarted, hinside]
    exact foldsTo_ifElse hlegible hloop hloopElse hlabels hfresh hbody hother
      (walk.enters_enter _ beforeElse) (Or.inl (walk.target_mem_pending_enter _ beforeElse)) rest

end IfElse

/-! ## Loops -/

section Loop

variable {condition : Condition} {body : Statement} {atoms : List Atom} {before after : String}
  {walk : Walk} {walked : List Atom}

/-- The atoms of a loop. -/
abbrev loopAtoms (condition : Condition) (atoms : List Atom) (before after : String) :
    List Atom :=
  .label before :: condition.lower after :: (atoms ++ [.jump before, .label after])

/-- A label in front of a statement. -/
theorem Folded.behindLabel {statement result : Statement} {names : List String} {next : Walk}
    {name : String} {rest : List Atom}
    (h : Folded convention statement names (walk.passLabel name rest) next result) :
    Folded convention statement (name :: names) walk next result where
  executes_iff := fun hstart => h.executes_iff (walk.forgets_passLabel name rest _ hstart)
  agrees := fun hstart hexecutes => h.agrees (walk.forgets_passLabel name rest _ hstart) hexecutes
  pending := by
    intro other hother hnot
    rw [List.mem_cons, not_or] at hnot
    exact h.pending (Walk.mem_pending_passLabel hother hnot.1 rest) hnot.2
  forgets := by
    intro other hother hnot
    rw [List.mem_cons, not_or] at hnot
    exact (walk.forgets_passLabel name rest).trans
      (h.forgets (Walk.mem_pending_passLabel hother hnot.1 rest) hnot.2)
  seen := by
    intro other hother
    rw [List.mem_cons]
    rcases h.seen hother with hother | hother
    · exact (Walk.mem_seen_passLabel.mp hother).symm.imp_right Or.inl
    · exact Or.inr (Or.inr hother)

/-- Rounds of a loop, each from a store that the walk is right about. -/
theorem executes_whileLoop_mono {result : Statement} {values : Values}
    (hround : ∀ {start finish}, values.Agrees convention start →
      Executes convention body start finish →
      Executes convention result start finish ∧ values.Agrees convention finish)
    {start finish : Store} (hstart : values.Agrees convention start)
    (h : Executes convention (.whileLoop condition body) start finish) :
    Executes convention (.whileLoop condition result) start finish ∧
      values.Agrees convention finish := by
  generalize hloop : Statement.whileLoop condition body = loop at h
  induction h with
  | whileTrue hholds hbody _ _ ihLoop =>
      cases hloop
      obtain ⟨hresult, hmiddle⟩ := hround hstart hbody
      obtain ⟨hrest, hfinish⟩ := ihLoop hmiddle rfl
      exact ⟨.whileTrue hholds hresult hrest, hfinish⟩
  | whileFalse hfails =>
      cases hloop
      exact ⟨.whileFalse hfails, hstart⟩
  | _ => cases hloop

/-- A loop that is entered.  What is known of variables that the body does not
assign stays known from round to round. -/
theorem Folded.whileLoop {result : Statement} {names : List String} {inner next : Walk}
    (henters : walk.Enters convention inner) (hafter : after ∈ inner.pending)
    (hnames : after ∉ names)
    (hframe : ∀ {start finish}, inner.values.Agrees convention start →
      Executes convention body start finish → inner.values.Agrees convention finish)
    (h : Folded convention body names inner next result) :
    Folded convention (.whileLoop condition body) names walk next
      (.whileLoop condition result) where
  executes_iff := by
    intro start finish hstart
    have hinner := henters.forgets start hstart
    constructor
    · intro hexecutes
      refine (executes_whileLoop_mono ?_ hinner hexecutes).1
      intro start finish hstart hresult
      have hbody := (h.executes_iff hstart).mp hresult
      exact ⟨hbody, hframe hstart hbody⟩
    · intro hexecutes
      refine (executes_whileLoop_mono ?_ hinner hexecutes).1
      intro start finish hstart hbody
      exact ⟨(h.executes_iff hstart).mpr hbody, hframe hstart hbody⟩
  agrees := by
    intro start finish hstart hexecutes
    have hinner := henters.forgets start hstart
    have hfinish : Executes convention (.whileLoop condition body) start finish ∧
        inner.values.Agrees convention finish := by
      refine executes_whileLoop_mono ?_ hinner hexecutes
      intro start finish hstart hbody
      exact ⟨hbody, hframe hstart hbody⟩
    exact h.forgets hafter hnames finish hfinish.2
  pending := fun hname hnot => h.pending (henters.pending hname) hnot
  forgets := fun hname hnot => henters.forgets.trans (h.forgets (henters.pending hname) hnot)
  seen := by
    intro name hname
    rw [← henters.seen]
    exact h.seen hname

/-- A jump behind a statement. -/
theorem Folded.passJump {statement result : Statement} {names : List String} {next : Walk}
    (h : Folded convention statement names walk next result) (target : String) :
    Folded convention statement names walk (next.passJump target) result where
  executes_iff := h.executes_iff
  agrees := fun hstart hexecutes => next.forgets_passJump target _ (h.agrees hstart hexecutes)
  pending := fun hname hnot => Walk.mem_pending_passJump (h.pending hname hnot)
  forgets := fun hname hnot => (h.forgets hname hnot).trans (next.forgets_passJump target)
  seen := by
    intro name hname
    rw [Walk.seen_passJump] at hname
    exact h.seen hname

/-- A loop that was run ahead of time. -/
theorem folded_simulated (hnegate : convention.negate = Neg.neg) {statement : Statement}
    {region : List Atom} (hlayout : Layout statement region)
    (hlabels : (labelsOf region).Nodup)
    (hlast : region[region.length - 1]? = some (.label after)) (hcertain : walk.certain = true)
    {values : Values} (hvalues : walk.values.simulate? region = some values) :
    Folded convention statement (labelsOf region) walk (walk.passLoop values after)
      statement := by
  have hnone : walk.pending = [] := List.isEmpty_iff.mp hcertain
  have hpos : 0 < region.length := by
    rcases Nat.eq_zero_or_pos region.length with hzero | hpos
    · simp [List.length_eq_zero_iff.mp hzero] at hlast
    · exact hpos
  exact {
    executes_iff := fun _ => Iff.rfl
    agrees := by
      intro start finish hstart hexecutes
      obtain ⟨n, later, -, hsteps, hagrees⟩ :=
        Values.simulateFrom?_stepN hnegate hlabels hstart hpos hvalues
      have hstep : AtomState.step? convention region ⟨region.length - 1, later⟩ =
          some ⟨region.length, later⟩ := by
        rw [AtomState.step?, hlast]
        simp [AtomState.runAtom?, AtomState.next]
        omega
      have hreach : Terminates convention region start later :=
        Reaches.trans ⟨n, hsteps⟩ (Reaches.single hstep)
      have heq := hexecutes.unique ((hlayout.terminates_iff hlabels).mp hreach)
      exact heq ▸ hagrees
    pending := fun hname _ => by simp [hnone] at hname
    forgets := fun hname _ => by simp [hnone] at hname
    seen := by
      intro name hname
      rcases List.mem_insert_iff.mp hname with rfl | hname
      · exact Or.inr (mem_labelsOf.mpr (List.mem_of_getElem? hlast))
      · exact Or.inl hname }

/-- The walk goes on into the body of a loop. -/
theorem foldsTo_whileLoop (hlegible : condition.IsLegible) (hlayout : Layout body atoms)
    (hloop : ∀ target, isLoopPair after target = false)
    (hlabels : (before :: (labelsOf atoms ++ [after])).Nodup)
    (hfresh : ∀ name ∈ labelsOf atoms, name ∉ walk.seen) (hbody : Foldable convention body atoms)
    (ahead rest : List Atom) :
    FoldsTo convention (.whileLoop condition body) (loopAtoms condition atoms before after) walk
      walked rest
      (Folding.finish ((walk.passLabel before ahead).enter (atoms ++ [.jump before]) after)
        (condition.lower after :: .label before :: walked)
        (atoms ++ .jump before :: .label after :: rest)) := by
  obtain ⟨hbefore, htail⟩ := List.nodup_cons.mp hlabels
  have hafter : after ∉ labelsOf atoms :=
    fun hmem => (List.nodup_append.mp htail).2.2 after hmem after (by simp) rfl
  let inner := (walk.passLabel before ahead).enter (atoms ++ [.jump before]) after
  have hinner : ∀ name ∈ labelsOf atoms, name ∉ inner.seen := by
    intro name hname hmem
    have hmem : name ∈ (walk.passLabel before ahead).seen := hmem
    rcases Walk.mem_seen_passLabel.mp hmem with rfl | hmem
    · exact hbefore (List.mem_append_left _ hname)
    · exact hfresh name hname hmem
  obtain ⟨result, kept, next, hfinish, -, hlayout', hsublist, hfolded⟩ :=
    hbody inner (condition.lower after :: .label before :: walked)
      (.jump before :: .label after :: rest) (settled_test condition after _) hinner
  have hframe : ∀ {start finish}, inner.values.Agrees convention start →
      Executes convention body start finish → inner.values.Agrees convention finish := by
    intro start finish hstart hexecutes
    refine Values.Agrees.of_forgotten hstart fun name hname => ?_
    refine hlayout.eq_of_not_assigned hexecutes fun hmem => hname ?_
    simp [hmem]
  refine ⟨.whileLoop condition result, loopAtoms condition kept before after,
    (next.passJump before).passLabel after rest, ?_, ?_,
    .whileLoop before after hlegible hlayout', ?_, ?_⟩
  · rw [hfinish, Folding.finish_jump, Folding.finish_label]
    simp
  · simpa using settled_label hloop _
  · exact ((hsublist.append (List.Sublist.refl _)).cons_cons _).cons_cons _
  · have hentered : Folded convention (.whileLoop condition body) (labelsOf atoms)
        (walk.passLabel before ahead) next (.whileLoop condition result) :=
      hfolded.whileLoop (Walk.enters_enter _ _ _) (Walk.target_mem_pending_enter _ _ _) hafter
        hframe
    simpa using ((hentered.passJump before).passLabel after rest).behindLabel

/-- A loop can be folded if its body can.  It is deleted if its test is known to fail.  It
is kept as it is if it can be rehearsed, and then its end is known; else the walk goes on
into its body. -/
theorem foldable_whileLoop (hnegate : convention.negate = Neg.neg)
    (hlegible : condition.IsLegible) (hlayout : Layout body atoms)
    (hpair : isLoopPair before after = true)
    (hloop : ∀ target, isLoopPair after target = false)
    (hlabels : (before :: (labelsOf atoms ++ [after])).Nodup)
    (hbody : Foldable convention body atoms) :
    Foldable convention (.whileLoop condition body) (loopAtoms condition atoms before after) := by
  intro walk walked rest hsettled hfresh
  have hafter : after ∉ labelsOf (atoms ++ [.jump before]) := by
    have hdisjoint := (List.nodup_append.mp (List.nodup_cons.mp hlabels).2).2.2
    simpa using fun hmem => hdisjoint after hmem after (by simp) rfl
  have hahead : loopAtoms condition atoms before after ++ rest =
      .label before :: condition.lower after ::
        ((atoms ++ [.jump before]) ++ .label after :: rest) := by simp
  have hinside : (atoms ++ [.jump before]) ++ .label after :: rest =
      atoms ++ .jump before :: .label after :: rest := by simp
  have hregion : .label before :: condition.lower after ::
      ((atoms ++ [.jump before]) ++ [.label after]) =
        loopAtoms condition atoms before after := by simp
  rw [hahead, Folding.finish_label]
  -- the test fails, the rehearsal succeeds, or the walk goes on into the body
  rcases Folding.finish_loopTest hpair hafter (walk.passLabel before _) walked rest with
    ⟨hfalse, hstarted⟩ | ⟨hcertain, values, hvalues, hstarted⟩ | hstarted
  · refine ⟨.skip, [], _, hstarted, hsettled, .skip, List.nil_sublist _, ?_⟩
    simp only [labelsOf_cons, Atom.label?_label, Option.toList_some, List.singleton_append]
    refine (folded_skip ?_).behindLabel
    intro start finish hstart
    have hfails := hstart.condition_holds hlegible hfalse
    constructor
    · intro h
      cases h with
      | whileTrue hholds _ _ => simp [hfails] at hholds
      | whileFalse _ => rfl
    · rintro rfl
      exact .whileFalse hfails
  · rw [hregion] at hvalues hstarted
    have hwhole : Layout (.whileLoop condition body) (loopAtoms condition atoms before after) :=
      .whileLoop before after hlegible hlayout
    refine ⟨.whileLoop condition body, _, _, hstarted, ?_, hwhole, List.Sublist.refl _, ?_⟩
    · simpa using settled_label hloop _
    · have hnodup : (labelsOf (loopAtoms condition atoms before after)).Nodup := by
        simpa using hlabels
      have hlast : (loopAtoms condition atoms before after)[
          (loopAtoms condition atoms before after).length - 1]? = some (.label after) := by simp
      have hsimulated := folded_simulated hnegate hwhole hnodup hlast hcertain hvalues
      refine hsimulated.behindLabel.congr (fun _ => Iff.rfl) ?_
      intro name hname
      rcases List.mem_cons.mp hname with rfl | hname
      · simp
      · exact hname
  · rw [hstarted, hinside]
    exact foldsTo_whileLoop hlegible hlayout hloop hlabels
      (fun name hname => hfresh name (by simp [hname])) hbody _ rest

end Loop

end AtomCompiler
