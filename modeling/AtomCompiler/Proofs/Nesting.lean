import AtomCompiler.Proofs.Listings
import AtomCompiler.Proofs.Tracking

/-!
# Folding the branches of lists of any origin

A list that nobody compiled may jump anywhere.  The walk that deletes branches goes
over it once, from left to right, and keeps its meaning as long as *loops are
nested*: no jump from behind a loop leads back into it.

A loop goes from a label to the last jump back to it.  Where the atom behind the
label is a test that is named for it, the loop goes to the label of that test.

* `loopsNested` — the condition, as a check of the list;
* `Tracked.step` — what one step of the walk keeps right, and that it keeps the
  meaning of the list;
* `terminates_foldBranches_of_loopsNested` — folding keeps the meaning of closed lists
  with nested loops;
* `foldBranches_changes_meaning` — and not of all lists.
-/

namespace AtomCompiler

variable {convention : Convention}

/-! ## Nested loops -/

/-- The atoms behind the last one that may jump to a label. -/
def behindLastJump (label : String) (atoms : List Atom) : List Atom :=
  (atoms.reverse.takeWhile fun atom => atom.jumpTarget? != some label).reverse

/-- The atoms behind the label that the test at the head of a list jumps to, or behind
the test if the label does not stand there. -/
def behindTest : List Atom → List Atom
  | .test _ _ _ target :: rest =>
    match splitAtLabel? target rest with
    | some (_, after) => after
    | none => rest
  | atoms => atoms

/-- Whether no jump from behind the loop at a label leads back into it, given the atoms
after the label.  For a loop that begins with its test only jumps to the label count
here. -/
def closesLoop (name : String) (rest : List Atom) : Bool :=
  if isLoopHead name rest then name ∉ jumpTargetsOf (behindTest rest)
  else !entersFrom (behindLastJump name rest) (beforeLastJump name rest)

/-- Whether no jump from behind the label of a test leads back to it or to a label
between the two. -/
def closesBody (target : String) (rest : List Atom) : Bool :=
  match splitAtLabel? target rest with
  | some (body, after) => !entersFrom after (body ++ [.label target])
  | none => true

/-- Whether loops are nested in a list, given the labels that stand before it.  A test
counts as the test of a loop if it is named for any label before it: the two may come to
stand side by side when the branches between them are deleted. -/
def loopsNestedAfter (earlier : List String) : List Atom → Bool
  | [] => true
  | .label name :: rest => closesLoop name rest && loopsNestedAfter (name :: earlier) rest
  | .test _ _ _ target :: rest =>
    (!(earlier.any fun name => isLoopPair name target) || closesBody target rest)
      && loopsNestedAfter earlier rest
  | _ :: rest => loopsNestedAfter earlier rest

/-- Whether no jump from behind a loop leads back into it. -/
def loopsNested (atoms : List Atom) : Bool :=
  loopsNestedAfter [] atoms

/-- The part of a list up to the last jump to a label: it assigns the variables and
holds the labels that stand before that jump. -/
theorem exists_upToLastJump (name : String) (rest : List Atom) :
    ∃ inner, rest = inner ++ behindLastJump name rest ∧
      assignedOf inner = assignedOf (beforeLastJump name rest) ∧
      labelsOf inner = labelsOf (beforeLastJump name rest) ∧
      name ∉ jumpTargetsOf (behindLastJump name rest) := by
  let jumpsElsewhere (atom : Atom) : Bool := atom.jumpTarget? != some name
  have hnot : name ∉ jumpTargetsOf (behindLastJump name rest) := by
    intro hmem
    obtain ⟨atom, hatom, htarget⟩ := List.mem_filterMap.mp hmem
    have hother := List.all_eq_true.mp (List.all_takeWhile (p := jumpsElsewhere)) atom
      (List.mem_reverse.mp hatom)
    simp [jumpsElsewhere, htarget] at hother
  have hrest : rest = (rest.reverse.dropWhile jumpsElsewhere).reverse ++
      behindLastJump name rest := by
    have hsplit := List.takeWhile_append_dropWhile (p := jumpsElsewhere) (l := rest.reverse)
    rw [behindLastJump, ← List.reverse_append, hsplit, List.reverse_reverse]
  have hjump := List.head?_dropWhile_not jumpsElsewhere rest.reverse
  refine ⟨_, hrest, and_assoc.mp ⟨?_, hnot⟩⟩
  have hbefore : beforeLastJump name rest =
      (rest.reverse.dropWhile jumpsElsewhere).tail.reverse := rfl
  rw [hbefore]
  cases hdrop : rest.reverse.dropWhile jumpsElsewhere with
  | nil => exact ⟨rfl, rfl⟩
  | cons atom front =>
      -- the last jump itself assigns nothing and is no label
      have htarget : atom.jumpTarget? = some name := by
        simpa [hdrop, jumpsElsewhere] using hjump
      have hnone : assignedOf [atom] = [] ∧ labelsOf [atom] = [] := by
        cases atom <;> first | exact ⟨rfl, rfl⟩ | cases htarget
      rw [List.reverse_cons, List.tail_cons, assignedOf_append, labelsOf_append, hnone.1, hnone.2]
      simp

/-- With fewer labels before the list fewer of its tests count as tests of loops. -/
theorem loopsNestedAfter_mono {earlier fewer : List String} {atoms : List Atom}
    (hfewer : ∀ name ∈ fewer, name ∈ earlier) (h : loopsNestedAfter earlier atoms = true) :
    loopsNestedAfter fewer atoms = true := by
  induction atoms generalizing earlier fewer with
  | nil => rfl
  | cons atom rest ih =>
      cases atom with
      | label name =>
          simp only [loopsNestedAfter, Bool.and_eq_true] at h ⊢
          refine ⟨h.1, ih (fun other hother => ?_) h.2⟩
          rcases List.mem_cons.mp hother with rfl | hother
          · exact List.mem_cons_self
          · exact List.mem_cons_of_mem _ (hfewer other hother)
      | test left right comparison target =>
          simp only [loopsNestedAfter, Bool.and_eq_true, Bool.or_eq_true, Bool.not_eq_true',
            List.any_eq_false] at h ⊢
          exact ⟨h.1.imp_left fun hnone name hname => hnone name (hfewer name hname),
            ih hfewer h.2⟩
      | _ => exact ih hfewer h

/-- Loops are nested in every end of a list. -/
theorem loopsNestedAfter_append {walked front back : List Atom}
    (h : loopsNestedAfter (labelsOf walked) (front ++ back) = true) :
    loopsNestedAfter (labelsOf (front.reverse ++ walked)) back = true := by
  induction front generalizing walked with
  | nil => exact h
  | cons atom front ih =>
      have hnext : loopsNestedAfter (labelsOf (atom :: walked)) (front ++ back) = true := by
        cases atom with
        | label name => exact (Bool.and_eq_true _ _ ▸ h).2
        | test left right comparison target => exact (Bool.and_eq_true _ _ ▸ h).2
        | _ => exact h
      simpa using ih hnext

/-! ## Steps of the walk -/

/-- What the walk knows is right where it has come to; or it is right at the label in
front, if that heads a loop and the test of the loop comes next. -/
inductive RightHere (convention : Convention) (walk : Walk) : List Atom → List Atom → Prop
  | here {walked ahead : List Atom} :
      RightAt convention walk.values walk.pending (walked.reverse ++ ahead) walked.length →
      RightHere convention walk walked ahead
  | atHead {earlier rest : List Atom} {name left right : String} {comparison : Comparison}
      {target : String} :
      isLoopPair name target = true →
      name ∉ jumpTargetsOf (behindTest (.test left right comparison target :: rest)) →
      RightAt convention walk.values walk.pending
        (earlier.reverse ++ .label name :: .test left right comparison target :: rest)
        earlier.length →
      RightHere convention walk (.label name :: earlier)
        (.test left right comparison target :: rest)

/-- The walk is right about the list that it has in hand. -/
structure Tracked (convention : Convention) (walk : Walk) (walked ahead : List Atom) : Prop where
  closed : Closed (walked.reverse ++ ahead)
  seen : ∀ name ∈ walk.seen, name ∉ labelsOf ahead
  nested : loopsNestedAfter (labelsOf walked) ahead = true
  right : RightHere convention walk walked ahead

section Steps

variable {walk : Walk} {walked rest : List Atom}

/-- Past a label. -/
theorem RightHere.label {name : String}
    (hlabels : (labelsOf (walked.reverse ++ .label name :: rest)).Nodup)
    (hcloses : closesLoop name rest = true)
    (h : RightHere convention walk walked (.label name :: rest)) :
    RightHere convention (walk.passLabel name rest) (.label name :: walked) rest := by
  obtain ⟨h⟩ := h
  by_cases hhead : isLoopHead name rest = true
  · obtain _ | ⟨atom, rest⟩ := rest
    · cases hhead
    cases atom with
    | test left right comparison target =>
        rw [closesLoop, if_pos hhead] at hcloses
        refine .atHead hhead (by simpa using hcloses) ?_
        have hlabel : (walked.reverse ++ .label name :: .test left right comparison target ::
            rest)[walked.length]? = some (.label name) := by simp
        have hright := h.filter_pending hlabels hlabel
        simpa [Walk.passLabel, hhead] using hright
    | _ => cases hhead
  -- no head of a loop: the walk forgets what is assigned up to the last jump back
  · obtain ⟨inner, hinner, hassigned, hinside, hlast⟩ := exists_upToLastJump name rest
    rw [closesLoop, if_neg hhead] at hcloses
    have hback : entersFrom (behindLastJump name rest) (.label name :: inner) = false := by
      rw [entersFrom_eq_false]
      intro target htarget
      rw [labelsOf_cons, hinside]
      simp only [Atom.label?_label, Option.toList_some, List.singleton_append, List.mem_cons,
        not_or]
      refine ⟨fun heq => hlast (heq ▸ htarget), ?_⟩
      exact entersFrom_eq_false.mp (by simpa using hcloses) target htarget
    have hcode : walked.reverse ++ .label name :: rest =
        walked.reverse ++ (.label name :: inner) ++ behindLastJump name rest := by
      simp [← hinner]
    have hlength : walked.length = walked.reverse.length := by simp
    rw [hcode] at hlabels h
    rw [hlength] at h
    have hright := h.passLabel hlabels hback
    rw [← hcode, hassigned] at hright
    refine .here ?_
    simpa [Walk.passLabel, hhead] using hright

/-- Past a jump or a test: its label is pending if it stands ahead. -/
theorem RightAt.passAhead {values : Values} {pending later : List String} {atom : Atom}
    {target : String} (htarget : atom.jumpTarget? = some target)
    (hpending : ∀ name ∈ pending, name ∈ later)
    (hahead : target ∈ labelsOf rest → target ∈ later)
    (h : RightAt convention values pending (walked.reverse ++ atom :: rest) walked.length) :
    RightAt convention values later ((atom :: walked).reverse ++ rest) (atom :: walked).length := by
  have hcode : walked.reverse ++ atom :: rest = (atom :: walked).reverse ++ rest := by simp
  have hatom : (walked.reverse ++ atom :: rest)[walked.length]? = some atom := by simp
  rw [← hcode]
  refine h.passJump hatom htarget hpending ?_
  intro store goal _ hstep hpast
  obtain ⟨other, hother, ⟨hfall, -⟩ | ⟨aim, haim, hgoal, -⟩⟩ := step?_cases hstep
  · have hfall : goal.place = walked.length + 1 := hfall
    omega
  · obtain rfl := Option.some.inj (hother.symm.trans hatom)
    obtain rfl := Option.some.inj (haim.symm.trans htarget)
    refine hahead (mem_labelsOf.mpr ?_)
    rw [hcode, List.getElem?_append_right (by simp; omega)] at hgoal
    exact List.mem_of_getElem? hgoal

/-- Past a jump. -/
theorem RightHere.jump {target : String} (hseen : ∀ name ∈ walk.seen, name ∉ labelsOf rest)
    (h : RightHere convention walk walked (.jump target :: rest)) :
    RightHere convention (walk.passJump target) (.jump target :: walked) rest := by
  obtain ⟨h⟩ := h
  have hvalues : (walk.passJump target).values = walk.values := by
    unfold Walk.passJump
    split <;> rfl
  refine .here (hvalues ▸ h.passAhead rfl (fun _ => Walk.mem_pending_passJump) ?_)
  intro hahead
  exact Walk.target_mem_pending_passJump fun hmem => hseen target hmem hahead

/-- Past an atom that assigns a variable. -/
theorem RightHere.assignment (hnegate : convention.negate = Neg.neg) {atom : Atom} {name : String}
    (hname : atom.assigned? = some name) (h : RightHere convention walk walked (atom :: rest)) :
    RightHere convention (walk.passAssignment atom name) (atom :: walked) rest := by
  cases h with
  | atHead => cases hname
  | here h =>
      have hatom : (walked.reverse ++ atom :: rest)[walked.length]? = some atom := by simp
      have hright := h.passAssignment hnegate hatom hname
      exact .here (by simpa [Walk.passAssignment] using hright)

end Steps

/-! ## Steps at a test -/

/-- A list that is not divided at a label does not have it. -/
theorem not_mem_labelsOf_of_splitAtLabel? {name : String} {atoms : List Atom}
    (h : splitAtLabel? name atoms = none) : name ∉ labelsOf atoms := by
  induction atoms with
  | nil => simp [labelsOf]
  | cons atom rest ih =>
      rw [splitAtLabel?] at h
      split at h
      · cases h
      · next hlabel =>
          rw [labelsOf_cons, List.mem_append, not_or]
          exact ⟨by simpa using hlabel, ih (by simpa using h)⟩

section Tests

variable {walk : Walk} {walked rest : List Atom} {left right : String} {comparison : Comparison}
  {target : String}

/-- Behind a test that has its label ahead comes what is behind the label. -/
theorem behindTest_of_splitAtLabel? {body after : List Atom}
    (h : splitAtLabel? target rest = some (body, after)) :
    behindTest (.test left right comparison target :: rest) = after := by
  simp [behindTest, h]

/-- Into the body of a test.  What the body assigns is forgotten, since the test may be
that of a loop. -/
theorem RightHere.enter {inner : List Atom}
    (hrest : rest = inner ++ behindTest (.test left right comparison target :: rest))
    (hlabels : (labelsOf (walked.reverse ++ .test left right comparison target :: rest)).Nodup)
    (hback : ∀ name earlier, walked = .label name :: earlier → isLoopPair name target = true →
      entersFrom (behindTest (.test left right comparison target :: rest)) inner = false)
    (h : RightHere convention walk walked (.test left right comparison target :: rest)) :
    RightAt convention (walk.values.forget (assignedOf inner)) walk.pending
      (walked.reverse ++ .test left right comparison target :: rest) walked.length := by
  cases h with
  | here h => exact h.weaken (fun _ hagrees => hagrees.forget _) fun _ hname => hname
  | @atHead earlier _ name _ _ _ _ hpair hlast h =>
      have hback := hback name earlier rfl hpair
      generalize behindTest (.test left right comparison target :: rest) = behind at *
      subst hrest
      have hcode : (Atom.label name :: earlier).reverse ++
          .test left right comparison target :: (inner ++ behind) = earlier.reverse ++
            (.label name :: .test left right comparison target :: inner) ++ behind := by simp
      have hregion : entersFrom behind
          (.label name :: .test left right comparison target :: inner) = false := by
        rw [entersFrom_eq_false] at hback ⊢
        intro jump hjump hmem
        rcases List.mem_cons.mp hmem with rfl | hmem
        · exact hlast hjump
        · exact hback jump hjump hmem
      rw [hcode] at hlabels ⊢
      have hlength : earlier.length = earlier.reverse.length := by simp
      have hright : RightAt convention walk.values walk.pending (earlier.reverse ++
          (.label name :: .test left right comparison target :: inner) ++ behind)
            earlier.reverse.length := by
        rw [← hlength]
        simpa using h
      have hright := hright.passLabel hlabels hregion
      rw [← hlength] at hright
      exact hright.weaken (fun _ hagrees => hagrees) fun _ hname => (List.mem_filter.mp hname).1

/-- In front of a branch, what is known is right. -/
theorem RightHere.atBranch {branch : Branch}
    (hbranch : Branch.of? walked left right comparison target rest = some branch)
    (h : RightHere convention walk walked (.test left right comparison target :: rest)) :
    RightAt convention walk.values walk.pending
      (branch.earlier.reverse ++ branch.region ++ branch.after) branch.earlier.reverse.length := by
  rw [← Branch.code_eq hbranch, List.length_reverse]
  obtain ⟨head, earlier, body, after, rfl, -, hhead⟩ := Branch.of?_cases hbranch
  cases h with
  | here h =>
      rcases hhead with ⟨-, rfl, -⟩ | ⟨name, -, rfl, -⟩
      · exact h
      · let code := (Atom.label name :: earlier).reverse ++
          .test left right comparison target :: rest
        have hlabel : code[earlier.length]? = some (.label name) := by simp [code]
        have htest : code[earlier.length + 1]? = some (.test left right comparison target) := by
          simp [code]
        exact RightAt.rewind hlabel htest rfl h
  | atHead hpair _ h =>
      rcases hhead with ⟨-, -, hnot⟩ | ⟨name, -, heq, -⟩
      · exact absurd hpair (Bool.eq_false_iff.mp (hnot _ _ rfl))
      · obtain rfl := (List.cons.inj heq).2
        simpa using h

/-- Where a test that heads no loop is known to hold, control goes on behind it. -/
theorem RightHere.holds {branch : Branch}
    (hbranch : Branch.of? walked left right comparison target rest = some branch)
    (hhead : branch.head = none)
    (htrue : walk.values.outcome? branch.left branch.comparison branch.right = some true)
    (h : RightHere convention walk walked (.test left right comparison target :: rest)) :
    RightHere convention walk (.test left right comparison target :: walked) rest := by
  obtain ⟨_, earlier, body, after, rfl, -, ⟨-, rfl, hnot⟩ | ⟨_, rfl, -, -⟩⟩ :=
    Branch.of?_cases hbranch
  · cases h with
    | atHead hpair => exact absurd hpair (Bool.eq_false_iff.mp (hnot _ _ rfl))
    | here h =>
        have hatom : (earlier.reverse ++ .test left right comparison target :: rest)[
            earlier.length]? = some (.test left right comparison target) := by simp
        have hright := h.passJump hatom rfl (fun _ hname => hname) (by
          intro store goal hagrees hstep hpast
          have hholds := hagrees.holds_of_outcome? htrue
          rw [AtomState.step?, hatom, Option.bind_some] at hstep
          simp only [AtomState.runAtom?, hholds, if_true, AtomState.next, Option.some.injEq]
            at hstep
          subst hstep
          simp at hpast)
        exact .here (by simpa using hright)
  · cases hhead

/-- Who comes back to a loop from behind comes back to its head, with a store that agrees
with what is known there. -/
theorem RightHere.agrees_of_back {name : String} {earlier body after : List Atom}
    (hsplit : splitAtLabel? target rest = some (body, after))
    (hcloses : closesBody target rest = true)
    (h : RightHere convention walk (.label name :: earlier)
      (.test left right comparison target :: rest))
    {region : List Atom} (hregion : region =
      .label name :: .test left right comparison target :: (body ++ [.label target]))
    (hlabels : (labelsOf (earlier.reverse ++ region ++ after)).Nodup) {state goal : AtomState}
    (hvisited : Visited convention (earlier.reverse ++ region ++ after) Store.zero state)
    (hstep : AtomState.step? convention (earlier.reverse ++ region ++ after) state = some goal)
    (hbehind : earlier.reverse.length + region.length ≤ state.place)
    (hfirst : earlier.reverse.length ≤ goal.place)
    (hlast : goal.place < earlier.reverse.length + region.length) :
    goal.place = earlier.reverse.length ∧ walk.values.Agrees convention goal.store := by
  obtain ⟨jump, hjump, hlabel, hgoal⟩ := exists_jump_of_step?_back hstep hbehind hfirst hlast
  have hhead : (earlier.reverse ++ region ++ after)[earlier.reverse.length]? =
      some (.label name) := by simp [hregion]
  -- the labels behind the head are closed to jumps from behind
  obtain rfl : jump = name := by
    rw [closesBody, hsplit] at hcloses
    have hclosed := entersFrom_eq_false.mp (by simpa using hcloses) jump hjump
    rw [hregion] at hlabel
    rcases List.mem_cons.mp hlabel with hname | hlabel
    · exact hname
    · exact (hclosed hlabel).elim
  have hplace : goal.place = earlier.reverse.length := by
    have heq := (labelPlace?_of_getElem? hlabels hgoal).symm.trans
      (labelPlace?_of_getElem? hlabels hhead)
    exact Option.some.inj heq
  refine ⟨hplace, ?_⟩
  cases h with
  | atHead _ hnot _ =>
      rw [behindTest_of_splitAtLabel? hsplit] at hnot
      exact (hnot hjump).elim
  | here h =>
      obtain ⟨place, store⟩ := goal
      obtain rfl : place = earlier.reverse.length := hplace
      have hcode : (Atom.label jump :: earlier).reverse ++
          .test left right comparison target :: rest = earlier.reverse ++ region ++ after := by
        simp [hregion, (splitAtLabel?_eq_some hsplit).1]
      have htest : (earlier.reverse ++ region ++ after)[(Atom.label jump :: earlier).length]? =
          some (.test left right comparison target) := by simp [hregion]
      rw [hcode] at h
      have hnext := (hvisited.next hstep).next (step?_of_label convention hgoal store)
      have hagrees := h.agrees htest rfl hnext (by simp)
      exact hagrees

/-- Behind a loop that was run ahead of time. -/
theorem RightHere.passLoop (hnegate : convention.negate = Neg.neg) {branch : Branch}
    (hlabels : (labelsOf (walked.reverse ++ .test left right comparison target :: rest)).Nodup)
    (hbranch : Branch.of? walked left right comparison target rest = some branch)
    (hhead : branch.head.isSome) (hcloses : closesBody target rest = true)
    (hpending : walk.pending = []) {values : Values}
    (hsimulate : walk.values.simulate? branch.region = some values)
    (h : RightHere convention walk walked (.test left right comparison target :: rest)) :
    RightHere convention (walk.passLoop values branch.target)
      (branch.region.reverse ++ branch.earlier) branch.after := by
  have hbefore := h.atBranch hbranch
  rw [hpending] at hbefore
  rw [Branch.code_eq hbranch] at hlabels
  have hright := hbefore.passLoop hnegate hlabels branch.getElem?_region_last hsimulate (by
    obtain ⟨_, earlier, body, after, rfl, hsplit, ⟨rfl, -, -⟩ | ⟨name, rfl, rfl, -⟩⟩ :=
      Branch.of?_cases hbranch
    · cases hhead
    · intro state goal hvisited hbehind hstep hfirst hlast
      exact h.agrees_of_back hsplit hcloses (Branch.region_of_head_some rfl) hlabels hvisited
        hstep hbehind hfirst hlast)
  exact .here (by simpa [Walk.passLoop, hpending, Nat.add_comm] using hright)

/-- Past a test whose label does not stand ahead. -/
theorem RightHere.pass (hnone : splitAtLabel? target rest = none)
    (hlabels : (labelsOf (walked.reverse ++ .test left right comparison target :: rest)).Nodup)
    (h : RightHere convention walk walked (.test left right comparison target :: rest)) :
    RightHere convention walk (.test left right comparison target :: walked) rest := by
  have hrest : rest = [] ++ behindTest (.test left right comparison target :: rest) := by
    simp [behindTest, hnone]
  have hentered := h.enter hrest hlabels fun _ _ _ _ => entersFrom_eq_false.mpr fun _ _ => by simp
  refine .here (hentered.passAhead rfl (fun _ hname => hname) fun hmem => ?_)
  exact absurd hmem (not_mem_labelsOf_of_splitAtLabel? hnone)

/-- Into the body of a test that may or may not fail. -/
theorem RightHere.uncertain {branch : Branch}
    (hbranch : Branch.of? walked left right comparison target rest = some branch)
    (hlabels : (labelsOf (walked.reverse ++ .test left right comparison target :: rest)).Nodup)
    (hback : ∀ name earlier, walked = .label name :: earlier → isLoopPair name target = true →
      closesBody target rest = true)
    (h : RightHere convention walk walked (.test left right comparison target :: rest)) :
    RightHere convention (walk.enter branch.body branch.target)
      (.test left right comparison target :: walked) rest := by
  obtain ⟨_, _, body, after, rfl, hsplit, -⟩ := Branch.of?_cases hbranch
  have hbehind : behindTest (.test left right comparison target :: rest) = after :=
    behindTest_of_splitAtLabel? hsplit
  have hrest : rest = (body ++ [.label target]) ++
      behindTest (.test left right comparison target :: rest) := by
    rw [hbehind, (splitAtLabel?_eq_some hsplit).1]
    simp
  have hassigned : assignedOf (body ++ [.label target]) = assignedOf body := by
    rw [assignedOf_append]
    exact List.append_nil _
  have hentered := h.enter hrest hlabels (by
    intro name earlier hwalked hpair
    have hcloses := hback name earlier hwalked hpair
    rw [closesBody, hsplit] at hcloses
    rw [hbehind]
    simpa using hcloses)
  rw [hassigned] at hentered
  exact .here (hentered.passAhead rfl (fun _ hname => Walk.mem_pending_enter hname body)
    fun _ => Walk.target_mem_pending_enter walk body target)

end Tests

/-! ## The whole walk -/

namespace Tracked

variable {walk next : Walk} {walked rest : List Atom}

/-- Where the walk just goes on, it has only to be right behind the atom. -/
theorem kept {atom : Atom} (h : Tracked convention walk walked (atom :: rest))
    (hseen : ∀ name ∈ next.seen, name ∈ walk.seen ∨ atom = .label name)
    (hright : RightHere convention next (atom :: walked) rest) :
    Tracked convention next (atom :: walked) rest := by
  have hnested : loopsNestedAfter (labelsOf walked) ([atom] ++ rest) = true := h.nested
  refine ⟨by simpa using h.closed, ?_, loopsNestedAfter_append hnested, hright⟩
  intro name hname hmem
  rcases hseen name hname with hold | rfl
  · exact h.seen name hold (by rw [labelsOf_cons]; exact List.mem_append_right _ hmem)
  · have hlabels := h.closed.1
    rw [labelsOf_append, labelsOf_cons] at hlabels
    have hnot := (List.nodup_cons.mp (List.nodup_append.mp hlabels).2.1).1
    exact hnot hmem

section Tests

variable {left right : String} {comparison : Comparison} {target : String} {branch : Branch}

/-- The test behind the head of a loop closes its body. -/
theorem closesBody (h : Tracked convention walk walked (.test left right comparison target :: rest))
    {name : String} {earlier : List Atom} (hwalked : walked = .label name :: earlier)
    (hpair : isLoopPair name target = true) : closesBody target rest = true := by
  have hnested := h.nested
  simp only [hwalked, loopsNestedAfter, Bool.and_eq_true] at hnested
  simpa [hpair] using hnested.1

/-- Behind a branch loops are nested, whether the branch is kept or not. -/
theorem nested_after
    (hbranch : Branch.of? walked left right comparison target rest = some branch)
    (h : Tracked convention walk walked (.test left right comparison target :: rest)) :
    loopsNestedAfter (labelsOf (branch.region.reverse ++ branch.earlier)) branch.after = true := by
  obtain ⟨head, earlier, body, after, rfl, hsplit, hhead⟩ := Branch.of?_cases hbranch
  have hahead : .test left right comparison target :: rest =
      (.test left right comparison target :: (body ++ [.label target])) ++ after := by
    simp [(splitAtLabel?_eq_some hsplit).1]
  have hnested := h.nested
  rw [hahead] at hnested
  rcases hhead with ⟨rfl, rfl, -⟩ | ⟨name, rfl, rfl, -⟩
  · exact loopsNestedAfter_append hnested
  · have hnested := loopsNestedAfter_append hnested
    simpa [Branch.region, Branch.test] using hnested

/-- Labels behind a branch are still to come. -/
theorem not_mem_seen (hbranch : Branch.of? walked left right comparison target rest = some branch)
    (h : Tracked convention walk walked (.test left right comparison target :: rest))
    {name : String} (hname : name ∈ walk.seen) : name ∉ labelsOf branch.after := by
  obtain ⟨_, _, body, after, rfl, hsplit, -⟩ := Branch.of?_cases hbranch
  intro hmem
  refine h.seen name hname ?_
  rw [(splitAtLabel?_eq_some hsplit).1, labelsOf_cons, labelsOf_append, labelsOf_cons]
  simp [hmem]

/-- A branch that is never taken is dropped. -/
theorem dropped (hbranch : Branch.of? walked left right comparison target rest = some branch)
    (hfalse : walk.values.outcome? branch.left branch.comparison branch.right = some false)
    (hentered : branch.isEnteredElsewhere = false)
    (h : Tracked convention walk walked (.test left right comparison target :: rest)) :
    Tracked convention walk branch.earlier branch.after ∧
      ∀ finish, Terminates convention (branch.earlier.reverse ++ branch.after) Store.zero finish ↔
        Terminates convention (walked.reverse ++ .test left right comparison target :: rest)
          Store.zero finish := by
  have hcode := Branch.code_eq hbranch
  have hclosed := h.closed
  have hbefore := h.right.atBranch hbranch
  have hout : entersFrom (branch.earlier.reverse ++ branch.after) branch.region = false := by
    rw [entersFrom_eq_false]
    intro jump hjump
    refine entersFrom_eq_false.mp hentered jump ?_
    simpa [jumpTargetsOf] using hjump
  rw [hcode] at hclosed ⊢
  have hpassed : ∀ store, Visited convention _ Store.zero ⟨branch.earlier.reverse.length, store⟩ →
      Reaches _ _ _ := fun store hvisited => hbefore.passed hclosed.1 hout hfalse hvisited
  have hkept := (Pruned.without_region hout).closed hclosed
  refine ⟨⟨hkept, fun _ => h.not_mem_seen hbranch, ?_, ?_⟩, fun finish => ?_⟩
  · refine loopsNestedAfter_mono ?_ (h.nested_after hbranch)
    intro name hname
    rw [labelsOf_append]
    exact List.mem_append_right _ hname
  · have hright := hbefore.without_region hclosed.1 hpassed
    exact .here (by simpa using hright)
  · exact terminates_without_region_iff hclosed.1 hpassed hkept

/-- A loop that was run ahead of time is passed. -/
theorem passLoop (hnegate : convention.negate = Neg.neg)
    (hbranch : Branch.of? walked left right comparison target rest = some branch)
    (hhead : branch.head.isSome) (hpending : walk.pending = []) {values : Values}
    (hsimulate : walk.values.simulate? branch.region = some values)
    (h : Tracked convention walk walked (.test left right comparison target :: rest)) :
    Tracked convention (walk.passLoop values branch.target)
      (branch.region.reverse ++ branch.earlier) branch.after := by
  have hclosed := h.closed
  rw [Branch.code_eq hbranch] at hclosed
  have hcloses : AtomCompiler.closesBody target rest = true := by
    obtain ⟨_, _, _, _, rfl, -, ⟨rfl, -, -⟩ | ⟨name, -, hwalked, hpair⟩⟩ := Branch.of?_cases hbranch
    · cases hhead
    · exact h.closesBody hwalked hpair
  refine ⟨by simpa using hclosed, ?_, h.nested_after hbranch,
    h.right.passLoop hnegate h.closed.1 hbranch hhead hcloses hpending hsimulate⟩
  intro name hname
  rcases List.mem_insert_iff.mp hname with rfl | hname
  · -- the label of the test stands in the region
    have hlabels := hclosed.1
    rw [labelsOf_append, labelsOf_append] at hlabels
    intro hmem
    have hregion : branch.target ∈ labelsOf branch.region := by
      rw [mem_labelsOf]
      simp [Branch.region]
    exact (List.nodup_append.mp hlabels).2.2 _ (List.mem_append_right _ hregion) _ hmem rfl
  · exact h.not_mem_seen hbranch hname

end Tests

/-- **One step of the walk** keeps right what it knows, and keeps the meaning of the
list in hand. -/
theorem step (hnegate : convention.negate = Neg.neg) {atom : Atom}
    (h : Tracked convention walk walked (atom :: rest)) :
    let next := Folding.step walk walked atom rest
    Tracked convention next.walk next.walked next.ahead ∧
      ∀ finish, Terminates convention next.code Store.zero finish ↔
        Terminates convention (walked.reverse ++ atom :: rest) Store.zero finish := by
  -- where the walk just goes on the list is the same
  have hsame : ∀ next : Walk, ∀ finish,
      Terminates convention (Folding.code ⟨next, atom :: walked, rest⟩) Store.zero finish ↔
        Terminates convention (walked.reverse ++ atom :: rest) Store.zero finish := by
    intro next finish
    simp [Folding.code]
  have hassign : ∀ name, atom.assigned? = some name →
      Tracked convention (walk.passAssignment atom name) (atom :: walked) rest :=
    fun name hname => h.kept (fun _ => Or.inl) (h.right.assignment hnegate hname)
  cases atom with
  | label name =>
      refine ⟨h.kept ?_ (h.right.label h.closed.1 ?_), hsame _⟩
      · intro other hother
        rcases Walk.mem_seen_passLabel.mp hother with rfl | hother
        · exact Or.inr rfl
        · exact Or.inl hother
      · exact (Bool.and_eq_true _ _ ▸ h.nested).1
  | jump target =>
      refine ⟨h.kept ?_ (h.right.jump fun name hname => h.seen name hname), hsame _⟩
      intro other hother
      exact Or.inl (walk.seen_passJump target ▸ hother)
  | arithmetic operation left right result => exact ⟨hassign result rfl, hsame _⟩
  | negate source result => exact ⟨hassign result rfl, hsame _⟩
  | move source result => exact ⟨hassign result rfl, hsame _⟩
  | test left right comparison target =>
      cases hbranch : Branch.of? walked left right comparison target rest with
      | none =>
          simp only [Folding.step, hbranch]
          exact ⟨h.kept (fun _ => Or.inl) (h.right.pass (by simpa [Branch.of?] using hbranch)
            h.closed.1), hsame _⟩
      | some branch =>
          have htest := Branch.test_eq hbranch
          simp only [Folding.step, hbranch]
          rcases Folding.passTest_cases walk branch walked rest with
            ⟨hfalse, hentered, hnext⟩ | ⟨htrue, hhead, hnext⟩ |
              ⟨hhead, hpending, values, hsimulate, hnext⟩ | hnext
          · rw [hnext]
            exact h.dropped hbranch hfalse hentered
          · rw [hnext, htest]
            exact ⟨h.kept (fun _ => Or.inl) (h.right.holds hbranch hhead htrue), hsame _⟩
          · rw [hnext]
            refine ⟨h.passLoop hnegate hbranch hhead hpending hsimulate, fun finish => ?_⟩
            rw [Branch.code_eq hbranch]
            simp [Folding.code]
          · rw [hnext, Folding.uncertain, htest]
            refine ⟨h.kept (fun _ => Or.inl) (h.right.uncertain hbranch h.closed.1 ?_), hsame _⟩
            intro name earlier
            exact h.closesBody

/-- **The whole walk** keeps the meaning of the list in hand. -/
theorem finish (hnegate : convention.negate = Neg.neg) {ahead : List Atom}
    (h : Tracked convention walk walked ahead) (finish : Store) :
    Terminates convention (Folding.finish walk walked ahead) Store.zero finish ↔
      Terminates convention (walked.reverse ++ ahead) Store.zero finish := by
  fun_induction Folding.finish walk walked ahead with
  | case1 => simp
  | case2 walk walked atom rest next ih =>
      obtain ⟨hnext, hmeaning⟩ := h.step hnegate
      exact (ih hnext).trans (hmeaning finish)

end Tracked

/-- **Folding keeps the meaning of closed lists with nested loops.** -/
theorem terminates_foldBranches_of_loopsNested (hnegate : convention.negate = Neg.neg)
    {atoms : List Atom} (hclosed : Closed atoms) (hnested : loopsNested atoms = true)
    (finish : Store) :
    Terminates convention (foldBranches atoms) Store.zero finish ↔
      Terminates convention atoms Store.zero finish := by
  have hstart : Tracked convention {} [] atoms :=
    ⟨hclosed, List.forall_mem_nil _, hnested, .here (rightAt_zero convention atoms)⟩
  exact hstart.finish hnegate finish

/-! ## Listings -/

/-- **Folding keeps the meaning of listings with nested loops,** whoever wrote them.
From the store of zeros the folded atoms end in a store exactly when the atoms
themselves do. -/
theorem listing_foldBranches_terminates_iff {text : String} {atoms : List Atom}
    (h : Listing.read text = .ok atoms) (hnested : loopsNested atoms = true)
    (divisionByZero : Float → Float → Float) (badLiteral : Float) (finish : Store) :
    Terminates ⟨divisionByZero, badLiteral, Neg.neg⟩ (foldBranches atoms) Store.zero finish ↔
      Terminates ⟨divisionByZero, badLiteral, Neg.neg⟩ atoms Store.zero finish :=
  terminates_foldBranches_of_loopsNested rfl (Listing.closed_of_read h) hnested finish

/-- A loop that is entered in the middle and left by a test whose label is behind it,
and then a loop that is never entered. -/
def entangledLoops : List Atom :=
  [.jump "inside", .label "again", .arithmetic .add "x" "1" "x", .label "inside",
    .arithmetic .add "y" "1" "y", .test "y" "3" .greater "again", .label "before_while_1",
    .test "z" "1" .greater "after_while_1", .move "7" "x", .jump "before_while_1",
    .label "after_while_1"]

/-- The second loop goes, and the first one ends as before. -/
theorem listing_foldBranches_terminates_iff_entangled :
    Listing.read (Listing.write entangledLoops) = .ok entangledLoops ∧
      loopsNested entangledLoops = true ∧
      foldBranches entangledLoops = entangledLoops.take 6 ∧
      ∀ finish, Terminates (.floating Neg.neg) (foldBranches entangledLoops) Store.zero finish ↔
        Terminates (.floating Neg.neg) entangledLoops Store.zero finish := by
  have hclosed : Closed entangledLoops := checkLabels_eq_ok_iff.mp (by decide +kernel)
  have hread := hclosed.read_write (by decide +kernel)
  have hnested : loopsNested entangledLoops = true := by decide +kernel
  exact ⟨hread, hnested, by decide +kernel,
    listing_foldBranches_terminates_iff hread hnested (· / ·) 0⟩

/-- A loop that is named for its test, and is entered again from behind its end. -/
def reenteredLoop : List Atom :=
  [.label "before_while_1", .test "x" "10" .less "after_while_1",
    .arithmetic .add "x" "1" "x", .label "after_while_1", .test "x" "2" .equal "skip",
    .move "1" "y", .label "skip", .test "x" "5" .greaterOrEqual "before_while_1"]

/-- **Folding does not keep the meaning of all listings.**  A loop that is entered again
from behind is run ahead of time only once, and a branch goes that is taken later. -/
theorem foldBranches_changes_meaning :
    ¬∀ text atoms, Listing.read text = .ok atoms → ∀ divisionByZero badLiteral finish,
      (Terminates ⟨divisionByZero, badLiteral, Neg.neg⟩ (foldBranches atoms) Store.zero finish ↔
        Terminates ⟨divisionByZero, badLiteral, Neg.neg⟩ atoms Store.zero finish) := by
  intro halways
  have hclosed : Closed reenteredLoop := checkLabels_eq_ok_iff.mp (by decide +kernel)
  have hread := hclosed.read_write (by decide +kernel)
  -- the list sets `y` in its second round, and the folded one has lost that branch
  obtain ⟨finish, hfinish, hone⟩ : ∃ finish,
      Terminates (.floating Neg.neg) reenteredLoop Store.zero finish ∧ finish "y" = 1 :=
    exists_terminates_of_stepN (n := 36) (by decide +kernel)
  obtain ⟨other, hother, hzero⟩ : ∃ finish,
      Terminates (.floating Neg.neg) (foldBranches reenteredLoop) Store.zero finish ∧
        finish "y" = 0 :=
    exists_terminates_of_stepN (n := 25) (by decide +kernel)
  obtain rfl := hfinish.unique ((halways _ _ hread (· / ·) 0 other).mp hother)
  rw [hone] at hzero
  exact absurd hzero (by decide +kernel)

end AtomCompiler
