import AtomCompiler.Proofs.Branches

/-!
# Knowledge that stays right

The walk knows the values of variables at the place it has come to, as control
comes there from before.  What it knows is right if every store that arrives there
agrees with it; and if control goes past the place, then to a pending label.

Jumps from behind are the difficulty.  A region is safe where no jump from behind it
leads back into it: inside, only the variables that the region assigns can change.

* `RightAt` — what is known is right at a place;
* `RightAt.passLabel`, `RightAt.passJump`, `RightAt.passAssignment` — past one atom;
* `RunsOut.step`, `RightAt.passLoop` — past a loop that was run ahead of time;
* `RightAt.passed`, `RightAt.without_region` — a branch that is known to fail is only
  ever passed through, and what is known stays right without it.
-/

namespace AtomCompiler

variable {convention : Convention} {values next : Values} {pending later : List String}
  {code before region after : List Atom} {place : Nat}

/-- Control goes to a place with a store that agrees with what is known, or past it to
a pending label. -/
def Expected (convention : Convention) (values : Values) (pending : List String)
    (code : List Atom) (place : Nat) (state : AtomState) : Prop :=
  values.Agrees convention state.store ∧
    (state.place = place ∨ ∃ name ∈ pending, code[state.place]? = some (.label name))

/-- What is known is right wherever control comes to a place, or to one behind it,
from before. -/
def RightAt (convention : Convention) (values : Values) (pending : List String)
    (code : List Atom) (place : Nat) : Prop :=
  ∀ state, Arrives convention code Store.zero place state →
    Expected convention values pending code place state

/-- At the start every variable is known to be zero. -/
theorem rightAt_zero (convention : Convention) (code : List Atom) :
    RightAt convention {} [] code 0 := by
  intro state harrives
  rcases harrives.from_before with rfl | ⟨earlier, -, hlt, -⟩
  · exact ⟨Values.agrees_zero convention, Or.inl rfl⟩
  · exact absurd hlt (Nat.not_lt_zero _)

/-- A test that is known to fail sends control to its label. -/
theorem Values.Agrees.step?_of_outcome?_false {store : Store}
    (h : values.Agrees convention store) (hlabels : (labelsOf code).Nodup) {left right : String}
    {comparison : Comparison} {target : String} {goal : Nat}
    (hatom : code[place]? = some (.test left right comparison target))
    (hgoal : code[goal]? = some (.label target))
    (hfalse : values.outcome? left comparison right = some false) :
    AtomState.step? convention code ⟨place, store⟩ = some ⟨goal, store⟩ := by
  have hfails := h.holds_of_outcome? hfalse
  rw [AtomState.step?, hatom, Option.bind_some]
  simp [AtomState.runAtom?, hfails, AtomState.goto?, labelPlace?_of_getElem? hlabels hgoal]

namespace RightAt

/-- Less may be known, and more may be pending. -/
theorem weaken (h : RightAt convention values pending code place)
    (hvalues : ∀ store, values.Agrees convention store → next.Agrees convention store)
    (hpending : ∀ name ∈ pending, name ∈ later) :
    RightAt convention next later code place := by
  intro state harrives
  obtain ⟨hagrees, hplace⟩ := h state harrives
  refine ⟨hvalues _ hagrees, hplace.imp_right ?_⟩
  rintro ⟨name, hname, hlabel⟩
  exact ⟨name, hpending name hname, hlabel⟩

/-- Past a region: who comes out of it is expected, and so is who comes past it from
before. -/
theorem of_region {first last : Nat} (hle : first ≤ last)
    (hpast : ∀ state, Arrives convention code Store.zero first state → last ≤ state.place →
      Expected convention next later code last state)
    (hout : ∀ state goal, Visited convention code Store.zero state → first ≤ state.place →
      state.place < last → AtomState.step? convention code state = some goal →
      last ≤ goal.place → Expected convention next later code last goal) :
    RightAt convention next later code last := by
  intro state harrives
  rcases harrives.earlier hle with hbefore | ⟨earlier, hvisited, hfirst, hlast, hstep⟩
  · exact hpast state hbefore harrives.le_place
  · exact hout earlier state hvisited hfirst hlast hstep harrives.le_place

/-- Who goes past a place from before goes to a pending label. -/
theorem exists_pending (h : RightAt convention values pending code place) {state : AtomState}
    (harrives : Arrives convention code Store.zero place state) (hpast : place < state.place) :
    ∃ name ∈ pending, code[state.place]? = some (.label name) := by
  rcases (h state harrives).2 with hplace | hpending
  · omega
  · exact hpending

/-- At a label, that label is no longer pending: it stands in one place only. -/
theorem filter_pending (h : RightAt convention values pending code place)
    (hlabels : (labelsOf code).Nodup) {name : String} (hlabel : code[place]? = some (.label name)) :
    RightAt convention values (pending.filter (· ≠ name)) code place := by
  intro state harrives
  obtain ⟨hagrees, hplace⟩ := h state harrives
  by_cases hstays : state.place = place
  · exact ⟨hagrees, Or.inl hstays⟩
  · obtain ⟨other, hother, hgoal⟩ := hplace.resolve_left hstays
    have hne : other ≠ name := by
      rintro rfl
      have heq := (labelPlace?_of_getElem? hlabels hgoal).symm.trans
        (labelPlace?_of_getElem? hlabels hlabel)
      exact hstays (Option.some.inj heq)
    exact ⟨hagrees, Or.inr ⟨other, List.mem_filter.mpr ⟨hother, by simpa using hne⟩, hgoal⟩⟩

/-! ## Past one atom -/

/-- The store agrees with what is known wherever control comes to an atom that is no
label. -/
theorem agrees (h : RightAt convention values pending code place) {atom : Atom}
    (hatom : code[place]? = some atom) (hlabel : atom.label? = none) {state : AtomState}
    (hvisited : Visited convention code Store.zero state) (hplace : state.place = place) :
    values.Agrees convention state.store := by
  subst hplace
  exact (h state (hvisited.arrives hatom hlabel)).1

/-- **Past a label.**  If no jump from behind a region leads back into it, then from the
label at its head on everything is still known but what the region assigns. -/
theorem passLabel {name : String} {inner behind : List Atom}
    (h : RightAt convention values pending (before ++ (.label name :: inner) ++ behind)
      before.length)
    (hlabels : (labelsOf (before ++ (.label name :: inner) ++ behind)).Nodup)
    (hback : entersFrom behind (.label name :: inner) = false) :
    RightAt convention (values.forget (assignedOf inner)) (pending.filter (· ≠ name))
      (before ++ (.label name :: inner) ++ behind) (before.length + 1) := by
  have hlabel : (before ++ (.label name :: inner) ++ behind)[before.length]? =
      some (.label name) := by simp
  -- all through the region only variables change that it assigns
  have hregion : ∀ state, Visited convention (before ++ (.label name :: inner) ++ behind)
      Store.zero state → before.length ≤ state.place →
      state.place < before.length + (Atom.label name :: inner).length →
      (values.forget (assignedOf inner)).Agrees convention state.store := by
    intro state
    refine forall_visited_of_region
      (fun state => (values.forget (assignedOf inner)).Agrees convention state.store) ?_ ?_ ?_
    · intro state harrives _
      exact (h state harrives).1.forget _
    · intro state goal hfirst hlast hagrees hstep _ _
      refine hagrees.of_forgotten fun other hother => ?_
      obtain ⟨atom, hatom, ⟨-, hframe⟩ | ⟨target, -, -, hstore⟩⟩ := step?_cases hstep
      · refine hframe other fun hassigned => hother ?_
        rcases List.mem_cons.mp (mem_of_getElem?_region hatom hfirst hlast) with rfl | hmem
        · cases hassigned
        · exact List.mem_filterMap.mpr ⟨atom, hmem, hassigned⟩
      · rw [hstore]
    · intro state goal _ hlast hstep hfirst hlt
      have hbehind := not_step?_back hback hstep hlast hfirst
      omega
  refine of_region (Nat.le_succ _) ?_ ?_
  · intro state harrives hpast
    exact ⟨(h state harrives).1.forget _,
      Or.inr ((h.filter_pending hlabels hlabel).exists_pending harrives hpast)⟩
  · intro state goal hvisited hfirst hlast hstep _
    have hplace : state.place = before.length := by omega
    obtain ⟨place, store⟩ := state
    obtain rfl : place = before.length := hplace
    have hagrees := hregion _ hvisited hfirst (by simp)
    obtain rfl := Option.some.inj ((step?_of_label convention hlabel store).symm.trans hstep)
    exact ⟨hagrees, Or.inl rfl⟩

/-- **Past a jump or a test.**  Where control can go on behind the next atom, the label
is pending. -/
theorem passJump (h : RightAt convention values pending code place) {atom : Atom}
    {target : String} (hatom : code[place]? = some atom)
    (htarget : atom.jumpTarget? = some target) (hpending : ∀ name ∈ pending, name ∈ later)
    (hahead : ∀ store goal, values.Agrees convention store →
      AtomState.step? convention code ⟨place, store⟩ = some goal →
      place + 1 < goal.place → target ∈ later) :
    RightAt convention values later code (place + 1) := by
  have hnone : atom.label? = none ∧ atom.assigned? = none := by
    cases atom <;> first | exact ⟨rfl, rfl⟩ | cases htarget
  refine of_region (Nat.le_succ _) ?_ ?_
  · intro state harrives hpast
    obtain ⟨name, hname, hlabel⟩ := h.exists_pending harrives (by omega)
    exact ⟨(h state harrives).1, Or.inr ⟨name, hpending name hname, hlabel⟩⟩
  · intro state goal hvisited hfirst hlast hstep hpast
    have hplace : state.place = place := by omega
    have hagrees := h.agrees hatom hnone.1 hvisited hplace
    obtain ⟨here, store⟩ := state
    obtain rfl : here = place := hplace
    obtain ⟨other, hother, hcases⟩ := step?_cases hstep
    obtain rfl : other = atom := Option.some.inj (hother.symm.trans hatom)
    rcases hcases with ⟨hfall, hframe⟩ | ⟨aim, haim, hlabel, hstore⟩
    · have hstore : goal.store = store := funext fun name => hframe name (by simp [hnone.2])
      exact ⟨hstore ▸ hagrees, Or.inl hfall⟩
    · obtain rfl : aim = target := Option.some.inj (haim.symm.trans htarget)
      refine ⟨hstore ▸ hagrees, ?_⟩
      by_cases hnext : goal.place = here + 1
      · exact Or.inl hnext
      · exact Or.inr ⟨aim, hahead store goal hagrees hstep (by omega), hlabel⟩

/-- **Past an assignment.**  Its value is recorded if nothing is pending. -/
theorem passAssignment (hnegate : convention.negate = Neg.neg) {walk : Walk}
    (h : RightAt convention walk.values walk.pending code place) {atom : Atom} {name : String}
    (hatom : code[place]? = some atom) (hname : atom.assigned? = some name) :
    RightAt convention (walk.passAssignment atom name).values walk.pending code (place + 1) := by
  have hlabel : atom.label? = none := by
    cases atom <;> first | rfl | cases hname
  refine of_region (Nat.le_succ _) ?_ ?_
  · intro state harrives hpast
    obtain ⟨other, hother, hgoal⟩ := h.exists_pending harrives (by omega)
    have hcertain : walk.certain = false := by
      unfold Walk.certain
      cases hpending : walk.pending with
      | nil => simp [hpending] at hother
      | cons _ _ => rfl
    refine ⟨?_, Or.inr ⟨other, hother, hgoal⟩⟩
    unfold Walk.passAssignment
    simp only [hcertain, Bool.false_eq_true, if_false]
    exact (h state harrives).1.set_none name
  · intro state goal hvisited hfirst hlast hstep _
    have hplace : state.place = place := by omega
    have hagrees := h.agrees hatom hlabel hvisited hplace
    obtain ⟨here, store⟩ := state
    obtain rfl : here = place := hplace
    obtain ⟨value, hvalue, hrun⟩ := hagrees.runAtom?_assigned hnegate hname code here
    rw [AtomState.step?, hatom, Option.bind_some, hrun] at hstep
    obtain rfl := Option.some.inj hstep
    refine ⟨hagrees.set fun number hnumber => ?_, Or.inl rfl⟩
    split at hnumber
    · exact hvalue number hnumber
    · cases hnumber

/-- What is known behind a label that heads a region is known in front of it too, if
control comes to the label from before. -/
theorem rewind {name : String} {atom : Atom} (hlabel : code[place]? = some (.label name))
    (hatom : code[place + 1]? = some atom) (hnone : atom.label? = none)
    (h : RightAt convention values pending code (place + 1)) :
    RightAt convention values pending code place := by
  intro state harrives
  by_cases hplace : state.place = place
  · obtain ⟨here, store⟩ := state
    obtain rfl : here = place := hplace
    have hnext := h ⟨here + 1, store⟩
      ⟨Nat.le_refl _, Or.inr ⟨_, harrives.visited, Nat.lt_succ_self _, step?_of_label _ hlabel _⟩⟩
    exact ⟨hnext.1, Or.inl rfl⟩
  · have hle := harrives.le_place
    have hbehind : Arrives convention code Store.zero (place + 1) state := by
      refine ⟨by omega, harrives.from_before.imp_right ?_⟩
      rintro ⟨earlier, hvisited, hlt, hstep⟩
      exact ⟨earlier, hvisited, by omega, hstep⟩
    refine ⟨(h state hbehind).1, Or.inr ?_⟩
    rcases (h state hbehind).2 with hnext | hpending
    · -- there is no jump to the atom behind the label
      rcases harrives.from_before with rfl | ⟨earlier, -, hlt, hstep⟩
      · have hnext : 0 = place + 1 := hnext
        omega
      · obtain ⟨_, -, ⟨hfall, -⟩ | ⟨target, -, hgoal, -⟩⟩ := step?_cases hstep
        · omega
        · rw [hnext, hatom] at hgoal
          obtain rfl := Option.some.inj hgoal
          cases hnone
    · exact hpending

end RightAt

/-! ## Past a loop that was run ahead of time -/

/-- From a state in a region that stands behind some atoms the region runs by itself to
its last atom, and what is known there is right. -/
def RunsOut (convention : Convention) (next : Values) (before region : List Atom)
    (state : AtomState) : Prop :=
  ∃ n later, stepN (AtomState.step? convention region) n
      ⟨state.place - before.length, state.store⟩ = some ⟨region.length - 1, later⟩ ∧
    next.Agrees convention later

/-- A loop that was run ahead of time runs out from its first atom. -/
theorem runsOut_of_simulate? (hnegate : convention.negate = Neg.neg)
    (hlabels : (labelsOf region).Nodup) (hpositive : 0 < region.length)
    (hsimulate : values.simulate? region = some next) {state : AtomState}
    (hplace : state.place = before.length) (hagrees : values.Agrees convention state.store) :
    RunsOut convention next before region state := by
  obtain ⟨n, later, -, hrun, hlater⟩ :=
    Values.simulateFrom?_stepN hnegate hlabels hagrees hpositive hsimulate
  refine ⟨n, later, ?_, hlater⟩
  rw [hplace, Nat.sub_self]
  exact hrun

/-- **One step of a region that runs out** stays in the region, which still runs out, or
leaves it behind its last atom. -/
theorem RunsOut.step {target : String} {state goal : AtomState}
    (h : RunsOut convention next before region state)
    (hlabels : (labelsOf (before ++ region ++ after)).Nodup)
    (hlast : region[region.length - 1]? = some (.label target))
    (hfirst : before.length ≤ state.place)
    (hstep : AtomState.step? convention (before ++ region ++ after) state = some goal) :
    (goal.place < before.length + region.length ∧ RunsOut convention next before region goal) ∨
      (goal.place = before.length + region.length ∧ next.Agrees convention goal.store) := by
  have hpositive := (List.getElem?_eq_some_iff.mp hlast).1
  obtain ⟨n, later, hrun, hlater⟩ := h
  obtain ⟨place, store⟩ := state
  have hsub : before.length + (place - before.length) = place := Nat.add_sub_cancel' hfirst
  cases n with
  | zero =>
      obtain ⟨hplace, rfl⟩ := AtomState.mk.inj (Option.some.inj hrun)
      have hplace : place = before.length + (region.length - 1) := by
        rw [← hsub]
        exact congrArg _ hplace
      have hlift := step?_of_part hlabels (step?_of_label convention hlast store)
      rw [← hplace, hstep] at hlift
      obtain rfl := Option.some.inj hlift
      exact Or.inr ⟨by simp only; omega, hlater⟩
  | succ n =>
      obtain ⟨middle, hmiddle, hrest⟩ := Option.bind_eq_some_iff.mp hrun
      have hlift := step?_of_part hlabels hmiddle
      rw [hsub, hstep] at hlift
      obtain rfl := Option.some.inj hlift
      have hle := place_le_of_step? hmiddle
      refine Or.inl ⟨?_, n, later, ?_, hlater⟩
      · -- behind its last atom the loop does not come back to it
        show before.length + middle.place < before.length + region.length
        suffices middle.place ≠ region.length by omega
        intro hend
        obtain ⟨place, store'⟩ := middle
        obtain rfl : place = region.length := hend
        have heq := eq_of_stepN_of_stopped hrest (AtomState.step?_length _ _ _)
        have hplace := congrArg AtomState.place heq
        simp only at hplace
        omega
      · simpa using hrest

namespace RightAt

/-- **Past a loop that was run ahead of time.**  Control arrives at its first atom only,
also where it comes back from behind, and runs through to its last one. -/
theorem passLoop (hnegate : convention.negate = Neg.neg) {target : String}
    (hlabels : (labelsOf (before ++ region ++ after)).Nodup)
    (h : RightAt convention values [] (before ++ region ++ after) before.length)
    (hlast : region[region.length - 1]? = some (.label target))
    (hsimulate : values.simulate? region = some next)
    (hback : ∀ state goal, Visited convention (before ++ region ++ after) Store.zero state →
      before.length + region.length ≤ state.place →
      AtomState.step? convention (before ++ region ++ after) state = some goal →
      before.length ≤ goal.place → goal.place < before.length + region.length →
      goal.place = before.length ∧ values.Agrees convention goal.store) :
    RightAt convention next [] (before ++ region ++ after) (before.length + region.length) := by
  have hpositive : 0 < region.length := by
    have hlt := (List.getElem?_eq_some_iff.mp hlast).1
    omega
  have hregionLabels : (labelsOf region).Nodup := by
    rw [labelsOf_append, labelsOf_append] at hlabels
    exact (List.nodup_append.mp (List.nodup_append.mp hlabels).1).2.1
  -- from every state in the loop the run goes on to its end as the rehearsal did, however the
  -- state was come to
  have hinside : ∀ state, Visited convention (before ++ region ++ after) Store.zero state →
      before.length ≤ state.place → state.place < before.length + region.length →
      RunsOut convention next before region state := by
    intro state
    refine forall_visited_of_region (RunsOut convention next before region) ?_ ?_ ?_
    · intro state harrives hlt
      obtain ⟨hagrees, hplace | ⟨_, hmem, -⟩⟩ := h state harrives
      · exact runsOut_of_simulate? hnegate hregionLabels hpositive hsimulate hplace hagrees
      · cases hmem
    · intro state goal hfirst hlt hruns hstep _ hgoal
      rcases hruns.step hlabels hlast hfirst hstep with ⟨-, hruns⟩ | ⟨hplace, -⟩
      · exact hruns
      · omega
    · intro state goal hvisited hbehind hstep hfirst hlt
      obtain ⟨hplace, hagrees⟩ := hback state goal hvisited hbehind hstep hfirst hlt
      exact runsOut_of_simulate? hnegate hregionLabels hpositive hsimulate hplace hagrees
  refine of_region (Nat.le_add_right _ _) ?_ ?_
  · intro state harrives hpast
    obtain ⟨_, hmem, -⟩ := h.exists_pending harrives (by omega)
    cases hmem
  · intro state goal hvisited hfirst hlt hstep hpast
    rcases (hinside state hvisited hfirst hlt).step hlabels hlast hfirst hstep with
      ⟨hgoal, -⟩ | ⟨hplace, hagrees⟩
    · omega
    · exact ⟨hagrees, Or.inl hplace⟩

/-! ## Without a branch that is never taken -/

section Failing

variable {left right : String} {comparison : Comparison} {target : String} {body : List Atom}

/-- A test that is known to fail is only passed through, with all its body. -/
theorem passed_test (hregion : region = .test left right comparison target ::
      (body ++ [.label target]))
    (hlabels : (labelsOf (before ++ region ++ after)).Nodup)
    (hfalse : values.outcome? left comparison right = some false)
    (h : RightAt convention values pending (before ++ region ++ after) before.length)
    {store : Store} (hvisited : Visited convention (before ++ region ++ after) Store.zero
      ⟨before.length, store⟩) :
    Reaches (AtomState.step? convention (before ++ region ++ after)) ⟨before.length, store⟩
      ⟨before.length + region.length, store⟩ := by
  have htest : (before ++ region ++ after)[before.length]? =
      some (.test left right comparison target) := by simp [hregion]
  have hgoal : (before ++ region ++ after)[before.length + (body.length + 1)]? =
      some (.label target) := by simp [hregion]
  have hlength : region.length = body.length + 1 + 1 := by simp [hregion]
  have hagrees := h.agrees htest rfl hvisited rfl
  rw [hlength]
  exact Reaches.head (hagrees.step?_of_outcome?_false hlabels htest hgoal hfalse)
    (Reaches.single (step?_of_label convention hgoal store))

/-- A loop that is known not to be entered is only passed through.  Its head may be the
target of jumps in its body, but these are never run. -/
theorem passed_loop {name : String} (hregion : region =
      .label name :: .test left right comparison target :: (body ++ [.label target]))
    (hlabels : (labelsOf (before ++ region ++ after)).Nodup)
    (hout : entersFrom (before ++ after) region = false)
    (hfalse : values.outcome? left comparison right = some false)
    (h : RightAt convention values pending (before ++ region ++ after) before.length)
    {store : Store} (hvisited : Visited convention (before ++ region ++ after) Store.zero
      ⟨before.length, store⟩) :
    Reaches (AtomState.step? convention (before ++ region ++ after)) ⟨before.length, store⟩
      ⟨before.length + region.length, store⟩ := by
  obtain ⟨houtBefore, houtAfter⟩ := entersFrom_append.mp hout
  have hhead : (before ++ region ++ after)[before.length]? = some (.label name) := by
    simp [hregion]
  have htest : (before ++ region ++ after)[before.length + 1]? =
      some (.test left right comparison target) := by simp [hregion]
  have hgoal : (before ++ region ++ after)[before.length + (body.length + 2)]? =
      some (.label target) := by simp [hregion]
  have hlength : region.length = body.length + 2 + 1 := by simp [hregion]
  have hfails : ∀ store, values.Agrees convention store →
      AtomState.step? convention (before ++ region ++ after) ⟨before.length + 1, store⟩ =
        some ⟨before.length + (body.length + 2), store⟩ :=
    fun store hagrees => hagrees.step?_of_outcome?_false hlabels htest hgoal hfalse
  -- control is at the head, at the test or at the label behind the body, and nowhere else
  have hinside : ∀ state, Visited convention (before ++ region ++ after) Store.zero state →
      before.length ≤ state.place → state.place < before.length + region.length →
      (state.place ≤ before.length + 1 ∧ values.Agrees convention state.store) ∨
        state.place = before.length + (body.length + 2) := by
    intro state
    refine forall_visited_of_region (fun state =>
      (state.place ≤ before.length + 1 ∧ values.Agrees convention state.store) ∨
        state.place = before.length + (body.length + 2)) ?_ ?_ ?_
    · intro state harrives hlast
      have hplace := harrives.place_eq houtBefore hlast
      exact Or.inl ⟨by omega, (h state harrives).1⟩
    · rintro ⟨place, store⟩ goal hfirst hlast hstate hstep - hgoalLast
      have hfirst : before.length ≤ place := hfirst
      rcases hstate with ⟨hplace, hagrees⟩ | rfl
      · have hplace : place = before.length ∨ place = before.length + 1 := by
          have hplace : place ≤ before.length + 1 := hplace
          omega
        rcases hplace with rfl | rfl
        · obtain rfl := Option.some.inj ((step?_of_label convention hhead store).symm.trans hstep)
          exact Or.inl ⟨Nat.le_refl _, hagrees⟩
        · obtain rfl := Option.some.inj ((hfails store hagrees).symm.trans hstep)
          exact Or.inr rfl
      · obtain rfl := Option.some.inj ((step?_of_label convention hgoal store).symm.trans hstep)
        rw [hlength] at hgoalLast
        exact absurd hgoalLast (Nat.lt_irrefl _)
    · intro state goal _ hbehind hstep hfirst hlt
      have hback := not_step?_back houtAfter hstep hbehind hfirst
      omega
  rcases hinside _ hvisited (Nat.le_refl _) (by simp [hlength]) with ⟨-, hagrees⟩ | hplace
  · rw [hlength]
    exact Reaches.head (step?_of_label convention hhead store)
      (Reaches.head (hfails store hagrees)
        (Reaches.single (step?_of_label convention hgoal store)))
  · simp at hplace

end Failing

/-- **A branch that is known to fail is only passed through,** if nothing outside jumps
into it. -/
theorem passed {branch : Branch}
    (hlabels : (labelsOf (before ++ branch.region ++ after)).Nodup)
    (hout : entersFrom (before ++ after) branch.region = false)
    (hfalse : values.outcome? branch.left branch.comparison branch.right = some false)
    (h : RightAt convention values pending (before ++ branch.region ++ after) before.length)
    {store : Store} (hvisited : Visited convention (before ++ branch.region ++ after) Store.zero
      ⟨before.length, store⟩) :
    Reaches (AtomState.step? convention (before ++ branch.region ++ after))
      ⟨before.length, store⟩ ⟨before.length + branch.region.length, store⟩ := by
  cases hhead : branch.head with
  | none => exact passed_test (Branch.region_of_head_none hhead) hlabels hfalse h hvisited
  | some name =>
      exact passed_loop (Branch.region_of_head_some hhead) hlabels hout hfalse h hvisited

/-- What is known stays right when a region is taken out that is only passed through. -/
theorem without_region (hlabels : (labelsOf (before ++ region ++ after)).Nodup)
    (hpassed : ∀ store, Visited convention (before ++ region ++ after) Store.zero
      ⟨before.length, store⟩ →
      Reaches (AtomState.step? convention (before ++ region ++ after)) ⟨before.length, store⟩
        ⟨before.length + region.length, store⟩)
    (h : RightAt convention values pending (before ++ region ++ after) before.length) :
    RightAt convention values pending (before ++ after) before.length := by
  intro state harrives
  obtain ⟨other, hother, hstore, hplace⟩ := harrives.lift hlabels hpassed
  refine ⟨hstore ▸ (h other hother).1, ?_⟩
  by_cases hstays : state.place = before.length
  · exact Or.inl hstays
  · obtain rfl := hplace.resolve_left hstays
    obtain ⟨place, store⟩ := state
    have hlt : before.length < place := Nat.lt_of_le_of_ne harrives.le_place (Ne.symm hstays)
    obtain ⟨name, hname, hlabel⟩ := h.exists_pending hother (by
      rw [AtomState.lift_of_le (Nat.le_of_lt hlt)]
      exact Nat.lt_of_lt_of_le hlt (Nat.le_add_right _ _))
    exact Or.inr ⟨name, hname, by rw [← hlabel, getElem?_lift]⟩

end RightAt

end AtomCompiler
