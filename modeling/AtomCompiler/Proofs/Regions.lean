import AtomCompiler.Proofs.GeneratedLabels

/-!
# Regions of an atom list

A region is a part of an atom list.  Control comes into it from before, falling
or jumping, moves about in it, and comes back into it from behind by a jump only.

* `AtomState.runAtom?_cases` — everything that an atom can do;
* `forall_visited_of_region` — what holds of a state wherever control comes into
  a region, and is kept inside, holds in the region at all times;
* `step?_of_part` — a part of a list that runs by itself runs the same in the
  list;
* `Pruned` — deleting atoms but no label that is still jumped to;
* `terminates_without_region_iff` — a region that is only ever passed through may
  be taken out.
-/

namespace AtomCompiler

variable {convention : Convention} {code before region after : List Atom} {start : Store}

/-! ## What an atom can do -/

/-- **Everything that an atom can do.**  It lets control fall through, with a change
of nothing but the variable it assigns, or it sends control to a label and changes
nothing.  Neither depends on where the atom stands. -/
theorem AtomState.runAtom?_cases (convention : Convention) (atom : Atom) (store : Store) :
    (∃ later : Store, (∀ name, atom.assigned? ≠ some name → later name = store name) ∧
      ∀ code place, runAtom? convention code ⟨place, store⟩ atom = some ⟨place + 1, later⟩) ∨
    ∃ target, atom.jumpTarget? = some target ∧
      ∀ code place, runAtom? convention code ⟨place, store⟩ atom =
        (labelPlace? code target).map fun goal => ⟨goal, store⟩ := by
  have hassign : ∀ result value, ∀ name, some result ≠ some name →
      store.set result value name = store name := by
    intro result value name hne
    exact Store.set_of_ne (fun heq => hne (by rw [heq])) _ _
  cases atom with
  | arithmetic operation left right result =>
      let value := convention.result operation (convention.value store left)
        (convention.value store right)
      exact Or.inl ⟨store.set result value, hassign result value, fun _ _ => rfl⟩
  | negate source result =>
      let value := convention.negate (convention.value store source)
      exact Or.inl ⟨store.set result value, hassign result value, fun _ _ => rfl⟩
  | move source result =>
      let value := convention.value store source
      exact Or.inl ⟨store.set result value, hassign result value, fun _ _ => rfl⟩
  | label name => exact Or.inl ⟨store, fun _ _ => rfl, fun _ _ => rfl⟩
  | jump target => exact Or.inr ⟨target, rfl, fun _ _ => rfl⟩
  | test left right comparison target =>
      by_cases hholds : comparison.holds (convention.value store left)
          (convention.value store right) = true
      · exact Or.inl ⟨store, fun _ _ => rfl, fun _ _ => by simp [runAtom?, hholds, next]⟩
      · exact Or.inr ⟨target, rfl, fun _ _ => by simp [runAtom?, hholds, goto?]⟩

/-- At the place of a label stands the label. -/
theorem getElem?_of_labelPlace? {name : String} {place : Nat}
    (h : labelPlace? code name = some place) : code[place]? = some (.label name) := by
  obtain ⟨hlt, hlabel, -⟩ := List.findIdx?_eq_some_iff_getElem.mp h
  rw [List.getElem?_eq_getElem hlt]
  generalize code[place] = atom at hlabel
  cases atom <;> simp_all [Atom.label?]

/-- A label that is defined once is found where it stands. -/
theorem labelPlace?_of_getElem? (hlabels : (labelsOf code).Nodup) {name : String} {place : Nat}
    (h : code[place]? = some (.label name)) : labelPlace? code name = some place := by
  obtain ⟨hlt, hatom⟩ := List.getElem?_eq_some_iff.mp h
  have hplaced : Placed code place (.label name :: code.drop (place + 1)) := by
    refine ⟨code.take place, [], ?_, by simp; omega⟩
    rw [← hatom, List.append_nil, List.getElem_cons_drop, List.take_append_drop]
  exact labelPlace?_of_placed hplaced hlabels

/-- **Everything that a step can do.** -/
theorem step?_cases {state next : AtomState}
    (h : AtomState.step? convention code state = some next) :
    ∃ atom, code[state.place]? = some atom ∧
      ((next.place = state.place + 1 ∧
          ∀ name, atom.assigned? ≠ some name → next.store name = state.store name) ∨
        ∃ target, atom.jumpTarget? = some target ∧
          code[next.place]? = some (.label target) ∧ next.store = state.store) := by
  obtain ⟨atom, hatom, hrun⟩ := Option.bind_eq_some_iff.mp h
  refine ⟨atom, hatom, ?_⟩
  rcases AtomState.runAtom?_cases convention atom state.store with
    ⟨later, hlater, hfall⟩ | ⟨target, htarget, hjump⟩
  · obtain rfl := Option.some.inj ((hfall code state.place).symm.trans hrun)
    exact Or.inl ⟨rfl, hlater⟩
  · obtain ⟨goal, hgoal, rfl⟩ := Option.map_eq_some_iff.mp ((hjump code state.place).symm.trans hrun)
    exact Or.inr ⟨target, htarget, getElem?_of_labelPlace? hgoal, rfl⟩

/-- Control falls through a label. -/
theorem step?_of_label (convention : Convention) {place : Nat} {name : String}
    (h : code[place]? = some (.label name)) (store : Store) :
    AtomState.step? convention code ⟨place, store⟩ = some ⟨place + 1, store⟩ := by
  rw [AtomState.step?, h]
  rfl

/-! ## States that a run comes to -/

/-- So many steps and then one more. -/
theorem stepN_concat {σ : Type} (step : σ → Option σ) (n : Nat) (state : σ) :
    stepN step (n + 1) state = (stepN step n state).bind step := by
  rw [stepN_add]
  refine congrArg _ (funext fun middle => ?_)
  rw [stepN_succ]
  cases step middle <;> rfl

/-- The run of a list from its first atom and the given store comes to a state. -/
def Visited (convention : Convention) (code : List Atom) (start : Store) (state : AtomState) :
    Prop :=
  Reaches (AtomState.step? convention code) ⟨0, start⟩ state

/-- The run comes to a state that is not before the given place from before it, or
begins there. -/
structure Arrives (convention : Convention) (code : List Atom) (start : Store) (place : Nat)
    (state : AtomState) : Prop where
  le_place : place ≤ state.place
  from_before : state = ⟨0, start⟩ ∨ ∃ earlier, Visited convention code start earlier ∧
    earlier.place < place ∧ AtomState.step? convention code earlier = some state

theorem visited_start (convention : Convention) (code : List Atom) (start : Store) :
    Visited convention code start ⟨0, start⟩ :=
  Reaches.refl _ _

/-- A step from a visited state leads to a visited one. -/
theorem Visited.next {state next : AtomState} (h : Visited convention code start state)
    (hstep : AtomState.step? convention code state = some next) :
    Visited convention code start next :=
  h.trans (Reaches.single hstep)

/-- A state at which a run arrives was visited. -/
theorem Arrives.visited {place : Nat} {state : AtomState}
    (h : Arrives convention code start place state) : Visited convention code start state := by
  rcases h.from_before with rfl | ⟨earlier, hvisited, -, hstep⟩
  · exact visited_start convention code start
  · exact hvisited.next hstep

/-- What holds at the beginning and is kept by every step of the run holds wherever
the run comes to. -/
theorem Visited.induction (property : AtomState → Prop) (hstart : property ⟨0, start⟩)
    (hnext : ∀ state next, Visited convention code start state → property state →
      AtomState.step? convention code state = some next → property next)
    {state : AtomState} (h : Visited convention code start state) : property state := by
  obtain ⟨n, hrun⟩ := h
  induction n generalizing state with
  | zero =>
      obtain rfl := Option.some.inj hrun
      exact hstart
  | succ n ih =>
      rw [stepN_concat] at hrun
      obtain ⟨earlier, hearlier, hstep⟩ := Option.bind_eq_some_iff.mp hrun
      exact hnext earlier state ⟨n, hearlier⟩ (ih hearlier) hstep

/-- **What holds in a region.**  It holds wherever control arrives from before, it is
kept by steps inside, and it holds where control comes back from behind. -/
theorem forall_visited_of_region {first last : Nat} (property : AtomState → Prop)
    (harrives : ∀ state, Arrives convention code start first state → state.place < last →
      property state)
    (hinside : ∀ state next, first ≤ state.place → state.place < last → property state →
      AtomState.step? convention code state = some next → first ≤ next.place →
      next.place < last → property next)
    (hback : ∀ state next, Visited convention code start state → last ≤ state.place →
      AtomState.step? convention code state = some next → first ≤ next.place →
      next.place < last → property next)
    {state : AtomState} (h : Visited convention code start state) (hfirst : first ≤ state.place)
    (hlast : state.place < last) : property state := by
  refine Visited.induction
    (fun state => first ≤ state.place → state.place < last → property state) ?_ ?_ h hfirst hlast
  · intro hle hlt
    exact harrives _ ⟨hle, Or.inl rfl⟩ hlt
  · intro state next hvisited hproperty hstep hle hlt
    by_cases hbefore : state.place < first
    · exact harrives next ⟨hle, Or.inr ⟨state, hvisited, hbefore, hstep⟩⟩ hlt
    · by_cases hbehind : last ≤ state.place
      · exact hback state next hvisited hbehind hstep hle hlt
      · exact hinside state next (by omega) (by omega)
          (hproperty (by omega) (by omega)) hstep hle hlt

/-- Control comes to an atom that is no label from right before it. -/
theorem Visited.arrives {state : AtomState} (h : Visited convention code start state)
    {atom : Atom} (hatom : code[state.place]? = some atom) (hlabel : atom.label? = none) :
    Arrives convention code start state.place state := by
  have hcases : state = ⟨0, start⟩ ∨ ∃ earlier, Visited convention code start earlier ∧
      AtomState.step? convention code earlier = some state :=
    Visited.induction (fun state => state = ⟨0, start⟩ ∨
        ∃ earlier, Visited convention code start earlier ∧
          AtomState.step? convention code earlier = some state)
      (Or.inl rfl) (fun earlier _ hvisited _ hstep => Or.inr ⟨earlier, hvisited, hstep⟩) h
  rcases hcases with rfl | ⟨earlier, hvisited, hstep⟩
  · exact ⟨Nat.le_refl _, Or.inl rfl⟩
  · refine ⟨Nat.le_refl _, Or.inr ⟨earlier, hvisited, ?_, hstep⟩⟩
    obtain ⟨_, -, ⟨hplace, -⟩ | ⟨target, -, hgoal, -⟩⟩ := step?_cases hstep
    · omega
    · obtain rfl := Option.some.inj (hatom.symm.trans hgoal)
      simp at hlabel

/-- Who arrives at a place or behind it also arrives at an earlier place, or comes
from an atom in between. -/
theorem Arrives.earlier {first last : Nat} {state : AtomState} (hle : first ≤ last)
    (h : Arrives convention code start last state) :
    Arrives convention code start first state ∨
      ∃ earlier, Visited convention code start earlier ∧ first ≤ earlier.place ∧
        earlier.place < last ∧ AtomState.step? convention code earlier = some state := by
  have hplace := h.le_place
  rcases h.from_before with hstart | ⟨earlier, hvisited, hlt, hstep⟩
  · exact Or.inl ⟨by omega, Or.inl hstart⟩
  · by_cases hbefore : earlier.place < first
    · exact Or.inl ⟨by omega, Or.inr ⟨earlier, hvisited, hbefore, hstep⟩⟩
    · exact Or.inr ⟨earlier, hvisited, by omega, hlt, hstep⟩

/-! ## Jumps into a region -/

/-- Nothing outside enters a region if no jump there leads to a label of the region. -/
theorem entersFrom_eq_false {outside region : List Atom} :
    entersFrom outside region = false ↔
      ∀ target ∈ jumpTargetsOf outside, target ∉ labelsOf region := by
  simp [entersFrom]

/-- Two parts do not enter a region if neither of them does. -/
theorem entersFrom_append {first second region : List Atom} :
    entersFrom (first ++ second) region = false ↔
      entersFrom first region = false ∧ entersFrom second region = false := by
  simp [entersFrom]

/-- An atom at a place of the region is one of the region. -/
theorem mem_of_getElem?_region {place : Nat} {atom : Atom}
    (h : (before ++ region ++ after)[place]? = some atom) (hfirst : before.length ≤ place)
    (hlast : place < before.length + region.length) : atom ∈ region := by
  rw [List.getElem?_append_left (by simpa using hlast), List.getElem?_append_right hfirst] at h
  exact List.mem_of_getElem? h

/-- An atom at a place behind the region is one of those behind it. -/
theorem mem_of_getElem?_behind {place : Nat} {atom : Atom}
    (h : (before ++ region ++ after)[place]? = some atom)
    (hlast : before.length + region.length ≤ place) : atom ∈ after := by
  rw [List.getElem?_append_right (by simpa using hlast)] at h
  exact List.mem_of_getElem? h

/-- An atom at a place before the region is one of those before it. -/
theorem mem_of_getElem?_before {place : Nat} {atom : Atom}
    (h : (before ++ region ++ after)[place]? = some atom) (hlt : place < before.length) :
    atom ∈ before := by
  rw [List.append_assoc, List.getElem?_append_left hlt] at h
  exact List.mem_of_getElem? h

/-- Control comes back into a region from behind by a jump to one of its labels. -/
theorem exists_jump_of_step?_back {state next : AtomState}
    (hstep : AtomState.step? convention (before ++ region ++ after) state = some next)
    (hplace : before.length + region.length ≤ state.place) (hfirst : before.length ≤ next.place)
    (hlast : next.place < before.length + region.length) :
    ∃ target ∈ jumpTargetsOf after, target ∈ labelsOf region ∧
      (before ++ region ++ after)[next.place]? = some (.label target) := by
  obtain ⟨atom, hatom, ⟨hfall, -⟩ | ⟨target, htarget, hgoal, -⟩⟩ := step?_cases hstep
  · omega
  · exact ⟨target, List.mem_filterMap.mpr ⟨atom, mem_of_getElem?_behind hatom hplace, htarget⟩,
      mem_labelsOf.mpr (mem_of_getElem?_region hgoal hfirst hlast), hgoal⟩

/-- Where no jump from behind leads into a region, control does not come back. -/
theorem not_step?_back (hback : entersFrom after region = false) {state next : AtomState}
    (hstep : AtomState.step? convention (before ++ region ++ after) state = some next)
    (hplace : before.length + region.length ≤ state.place) (hfirst : before.length ≤ next.place) :
    before.length + region.length ≤ next.place := by
  refine Nat.le_of_not_lt fun hlast => ?_
  obtain ⟨target, hjump, hlabel, -⟩ := exists_jump_of_step?_back hstep hplace hfirst hlast
  exact entersFrom_eq_false.mp hback target hjump hlabel

/-- Where no jump from before leads into a region, control only falls into it. -/
theorem Arrives.place_eq (hjumps : entersFrom before region = false) {state : AtomState}
    (h : Arrives convention (before ++ region ++ after) start before.length state)
    (hlast : state.place < before.length + region.length) : state.place = before.length := by
  have hle := h.le_place
  rcases h.from_before with rfl | ⟨earlier, -, hlt, hstep⟩
  · have hzero : before.length ≤ 0 := hle
    show 0 = before.length
    omega
  · obtain ⟨atom, hatom, ⟨hfall, -⟩ | ⟨target, htarget, hgoal, -⟩⟩ := step?_cases hstep
    · omega
    · have hlabel := mem_labelsOf.mpr (mem_of_getElem?_region hgoal hle hlast)
      have hjump : target ∈ jumpTargetsOf before :=
        List.mem_filterMap.mpr ⟨atom, mem_of_getElem?_before hatom hlt, htarget⟩
      exact (entersFrom_eq_false.mp hjumps target hjump hlabel).elim

/-! ## Parts that run by themselves -/

/-- **A part of a list that runs by itself runs the same in the list.** -/
theorem step?_of_part (hlabels : (labelsOf (before ++ region ++ after)).Nodup) {place : Nat}
    {store : Store} {next : AtomState}
    (h : AtomState.step? convention region ⟨place, store⟩ = some next) :
    AtomState.step? convention (before ++ region ++ after) ⟨before.length + place, store⟩ =
      some ⟨before.length + next.place, next.store⟩ := by
  have hfetch : ∀ index (atom : Atom), region[index]? = some atom →
      (before ++ region ++ after)[before.length + index]? = some atom := by
    intro index atom hindex
    have hlt := (List.getElem?_eq_some_iff.mp hindex).1
    rw [List.getElem?_append_left (by simpa using hlt), List.getElem?_append_right (by omega),
      Nat.add_sub_cancel_left, hindex]
  obtain ⟨atom, hatom, hrun⟩ := Option.bind_eq_some_iff.mp h
  rw [AtomState.step?, hfetch place atom hatom, Option.bind_some]
  rcases AtomState.runAtom?_cases convention atom store with
    ⟨later, -, hfall⟩ | ⟨target, -, hjump⟩
  · obtain rfl := Option.some.inj ((hfall region place).symm.trans hrun)
    rw [hfall]
    rfl
  · obtain ⟨goal, hgoal, rfl⟩ := Option.map_eq_some_iff.mp ((hjump region place).symm.trans hrun)
    rw [hjump, labelPlace?_of_getElem? hlabels (hfetch goal _ (getElem?_of_labelPlace? hgoal))]
    rfl

/-! ## Taking a region out -/

/-- The state in the list with a region that belongs to a state in the list without
it. -/
def AtomState.lift (first count : Nat) (state : AtomState) : AtomState :=
  ⟨if state.place < first then state.place else state.place + count, state.store⟩

/-- A place before the region stays where it is. -/
theorem AtomState.lift_of_lt {first place : Nat} (h : place < first) (count : Nat)
    (store : Store) : AtomState.lift first count ⟨place, store⟩ = ⟨place, store⟩ := by
  simp [lift, h]

/-- A place behind the region is moved by its length. -/
theorem AtomState.lift_of_le {first place : Nat} (h : first ≤ place) (count : Nat)
    (store : Store) : AtomState.lift first count ⟨place, store⟩ = ⟨place + count, store⟩ := by
  simp [lift, Nat.not_lt.mpr h]

/-- At a place that was lifted over the region stands the same atom. -/
theorem getElem?_lift (before region after : List Atom) (state : AtomState) :
    (before ++ region ++ after)[(state.lift before.length region.length).place]? =
      (before ++ after)[state.place]? := by
  obtain ⟨place, store⟩ := state
  by_cases hlt : place < before.length
  · rw [AtomState.lift_of_lt hlt, List.append_assoc, List.getElem?_append_left hlt,
      List.getElem?_append_left hlt]
  · have hle : before.length ≤ place := by omega
    rw [AtomState.lift_of_le hle, List.getElem?_append_right (by simp; omega),
      List.getElem?_append_right hle]
    congr 1
    simp only [List.length_append]
    omega

/-- A list is left over when atoms are deleted from another, and what it still jumps
to has not been deleted. -/
structure Pruned (shorter longer : List Atom) : Prop where
  sublist : shorter.Sublist longer
  labels : ∀ target ∈ jumpTargetsOf shorter, target ∈ labelsOf longer → target ∈ labelsOf shorter

namespace Pruned

variable {shorter longer : List Atom}

theorem refl (atoms : List Atom) : Pruned atoms atoms :=
  ⟨List.Sublist.refl atoms, fun _ _ h => h⟩

/-- Deleting twice is deleting. -/
theorem trans {longest : List Atom} (h₁ : Pruned shorter longer) (h₂ : Pruned longer longest) :
    Pruned shorter longest := by
  refine ⟨h₁.sublist.trans h₂.sublist, fun target htarget hlabel => ?_⟩
  exact h₁.labels target htarget
    (h₂.labels target ((h₁.sublist.filterMap _).subset htarget) hlabel)

/-- Labels stay distinct when atoms are deleted. -/
theorem nodup_labelsOf (h : Pruned shorter longer) (hlabels : (labelsOf longer).Nodup) :
    (labelsOf shorter).Nodup :=
  hlabels.sublist (h.sublist.filterMap _)

/-- A closed list stays closed when atoms are deleted. -/
theorem closed (h : Pruned shorter longer) (hclosed : Closed longer) : Closed shorter := by
  refine ⟨h.nodup_labelsOf hclosed.1, fun target htarget => ?_⟩
  exact h.labels target htarget (hclosed.2 target ((h.sublist.filterMap _).subset htarget))

/-- A region may be deleted that nothing else jumps into. -/
theorem without_region (hout : entersFrom (before ++ after) region = false) :
    Pruned (before ++ after) (before ++ region ++ after) := by
  refine ⟨(List.sublist_append_left before region).append (List.Sublist.refl after), ?_⟩
  intro target htarget hlabel
  have hnot := entersFrom_eq_false.mp hout target htarget
  simp only [labelsOf_append, List.mem_append] at hlabel ⊢
  rcases hlabel with (hlabel | hlabel) | hlabel
  · exact Or.inl hlabel
  · exact (hnot hlabel).elim
  · exact Or.inr hlabel

end Pruned

section Passed

variable (hlabels : (labelsOf (before ++ region ++ after)).Nodup)
  (hpassed : ∀ store, Visited convention (before ++ region ++ after) start ⟨before.length, store⟩ →
    Reaches (AtomState.step? convention (before ++ region ++ after)) ⟨before.length, store⟩
      ⟨before.length + region.length, store⟩)
include hlabels hpassed

/-- A step without the region is one step or more with it. -/
theorem stepN_lift_of_step? {state next : AtomState}
    (hvisited : Visited convention (before ++ region ++ after) start
      (state.lift before.length region.length))
    (hstep : AtomState.step? convention (before ++ after) state = some next) :
    ∃ n, stepN (AtomState.step? convention (before ++ region ++ after)) (n + 1)
      (state.lift before.length region.length) =
        some (next.lift before.length region.length) := by
  obtain ⟨place, store⟩ := state
  obtain ⟨atom, hatom, hrun⟩ := Option.bind_eq_some_iff.mp hstep
  have hfetch := (getElem?_lift before region after ⟨place, store⟩).trans hatom
  have hlift : AtomState.step? convention (before ++ region ++ after)
      (AtomState.lift before.length region.length ⟨place, store⟩) =
        AtomState.runAtom? convention (before ++ region ++ after)
          ⟨(AtomState.lift before.length region.length ⟨place, store⟩).place, store⟩ atom := by
    rw [AtomState.step?, hfetch]
    rfl
  rcases AtomState.runAtom?_cases convention atom store with
    ⟨later, -, hfall⟩ | ⟨target, -, hjump⟩
  · obtain rfl := Option.some.inj ((hfall (before ++ after) place).symm.trans hrun)
    rw [hfall] at hlift
    by_cases hlast : place + 1 = before.length
    · -- control falls into the region, and passes through it
      rw [AtomState.lift_of_lt (show place < before.length by omega)] at hlift hvisited ⊢
      rw [AtomState.lift_of_le (show before.length ≤ place + 1 by omega)]
      have hlift : AtomState.step? convention (before ++ region ++ after) ⟨place, store⟩ =
          some ⟨before.length, later⟩ := by
        rw [hlift]
        exact congrArg some (congrArg (AtomState.mk · later) hlast)
      obtain ⟨n, hn⟩ := hpassed later (hvisited.next hlift)
      refine ⟨n, ?_⟩
      rw [stepN_succ, hlift, Option.bind_some, hn, hlast]
    · refine ⟨0, ?_⟩
      rw [stepN_succ, hlift, Option.bind_some, stepN_zero]
      by_cases hlt : place < before.length
      · rw [AtomState.lift_of_lt (show place + 1 < before.length by omega),
          AtomState.lift_of_lt hlt]
      · rw [AtomState.lift_of_le (show before.length ≤ place + 1 by omega),
          AtomState.lift_of_le (show before.length ≤ place by omega)]
        exact congrArg some (congrArg (AtomState.mk · later) (by simp only; omega))
  · obtain ⟨goal, hgoal, rfl⟩ :=
      Option.map_eq_some_iff.mp ((hjump (before ++ after) place).symm.trans hrun)
    have hlabel := (getElem?_lift before region after ⟨goal, store⟩).trans
      (getElem?_of_labelPlace? hgoal)
    refine ⟨0, ?_⟩
    rw [stepN_succ, hlift, hjump, labelPlace?_of_getElem? hlabels hlabel]
    rfl

/-- A run without the region is a run with it that is no shorter. -/
theorem stepN_lift {n : Nat} {state : AtomState}
    (hrun : stepN (AtomState.step? convention (before ++ after)) n ⟨0, start⟩ = some state) :
    ∃ m, n ≤ m ∧ stepN (AtomState.step? convention (before ++ region ++ after)) m ⟨0, start⟩ =
      some (state.lift before.length region.length) := by
  induction n generalizing state with
  | zero =>
      obtain rfl := Option.some.inj hrun
      by_cases hlt : 0 < before.length
      · exact ⟨0, Nat.le_refl 0, by rw [AtomState.lift_of_lt hlt]; rfl⟩
      · -- the list begins with the region
        have hzero : before.length = 0 := by omega
        obtain ⟨m, hm⟩ := hpassed start (by rw [hzero]; exact visited_start _ _ _)
        refine ⟨m, Nat.zero_le m, ?_⟩
        rw [AtomState.lift_of_le (show before.length ≤ 0 by omega)]
        simpa [hzero] using hm
  | succ n ih =>
      rw [stepN_concat] at hrun
      obtain ⟨earlier, hearlier, hstep⟩ := Option.bind_eq_some_iff.mp hrun
      obtain ⟨m, hle, hm⟩ := ih hearlier
      obtain ⟨k, hk⟩ := stepN_lift_of_step? hlabels hpassed ⟨m, hm⟩ hstep
      exact ⟨m + (k + 1), by omega, by rw [stepN_add, hm]; exact hk⟩

/-- What is visited without the region is visited with it, at the lifted place. -/
theorem visited_lift {state : AtomState}
    (h : Visited convention (before ++ after) start state) :
    Visited convention (before ++ region ++ after) start
      (state.lift before.length region.length) := by
  obtain ⟨n, hn⟩ := h
  obtain ⟨m, -, hm⟩ := stepN_lift hlabels hpassed hn
  exact ⟨m, hm⟩

/-- **A region that is only passed through may be taken out.** -/
theorem terminates_without_region_iff (hclosed : Closed (before ++ after)) {finish : Store} :
    Terminates convention (before ++ after) start finish ↔
      Terminates convention (before ++ region ++ after) start finish := by
  have hforward : ∀ finish, Terminates convention (before ++ after) start finish →
      Terminates convention (before ++ region ++ after) start finish := by
    intro finish hshort
    have hwhole := visited_lift hlabels hpassed hshort
    rw [AtomState.lift_of_le (show before.length ≤ (before ++ after).length by simp)] at hwhole
    have hlength : (before ++ after).length + region.length =
        (before ++ region ++ after).length := by
      simp only [List.length_append]
      omega
    rw [hlength] at hwhole
    exact hwhole
  refine ⟨hforward finish, fun hwhole => ?_⟩
  by_cases hshort : ∃ other, Terminates convention (before ++ after) start other
  · obtain ⟨other, hother⟩ := hshort
    rw [hwhole.unique (hforward other hother)]
    exact hother
  · -- without the region the run would go on forever, and so it would with it
    have hforever := hclosed.runsForever_iff.mpr hshort
    refine absurd (fun n => ?_) (Reaches.not_runsForever hwhole (AtomState.step?_length _ _ _))
    obtain ⟨state, hstate⟩ := Option.isSome_iff_exists.mp (hforever n)
    obtain ⟨m, hle, hm⟩ := stepN_lift hlabels hpassed hstate
    exact stepN_isSome_of_le hle (by rw [hm]; rfl)

/-- Who arrives behind the region that was taken out also arrives, with the same
store, at the region or behind it. -/
theorem Arrives.lift {state : AtomState}
    (h : Arrives convention (before ++ after) start before.length state) :
    ∃ other, Arrives convention (before ++ region ++ after) start before.length other ∧
      other.store = state.store ∧
      (state.place = before.length ∨ other = state.lift before.length region.length) := by
  have hle := h.le_place
  rcases h.from_before with rfl | ⟨⟨place, store⟩, hvisited, hlt, hstep⟩
  · have hle : before.length ≤ 0 := hle
    exact ⟨⟨0, start⟩, ⟨hle, Or.inl rfl⟩, rfl, Or.inl (by show 0 = before.length; omega)⟩
  · have hlt : place < before.length := hlt
    have hwhole := visited_lift hlabels hpassed hvisited
    have hlift := getElem?_lift before region after ⟨place, store⟩
    rw [AtomState.lift_of_lt hlt] at hwhole hlift
    obtain ⟨atom, hatom, hrun⟩ := Option.bind_eq_some_iff.mp hstep
    have hstep' : AtomState.step? convention (before ++ region ++ after) ⟨place, store⟩ =
        AtomState.runAtom? convention (before ++ region ++ after) ⟨place, store⟩ atom := by
      rw [AtomState.step?, hlift, hatom]
      rfl
    -- control falls to the first place of the region, or jumps to a label that has moved
    rcases AtomState.runAtom?_cases convention atom store with
      ⟨later, -, hfall⟩ | ⟨target, -, hjump⟩
    · obtain rfl := Option.some.inj ((hfall (before ++ after) place).symm.trans hrun)
      have hplace : place + 1 = before.length := by
        have hle : before.length ≤ place + 1 := hle
        omega
      exact ⟨_, ⟨hle, Or.inr ⟨⟨place, store⟩, hwhole, hlt, hstep'.trans (hfall _ _)⟩⟩, rfl,
        Or.inl hplace⟩
    · obtain ⟨goal, hgoal, rfl⟩ :=
        Option.map_eq_some_iff.mp ((hjump (before ++ after) place).symm.trans hrun)
      have hlabel := (getElem?_lift before region after ⟨goal, store⟩).trans
        (getElem?_of_labelPlace? hgoal)
      have hgoto := (hjump (before ++ region ++ after) place).trans
        (congrArg (Option.map _) (labelPlace?_of_getElem? hlabels hlabel))
      refine ⟨_, ⟨?_, Or.inr ⟨⟨place, store⟩, hwhole, hlt, hstep'.trans hgoto⟩⟩, rfl, Or.inr rfl⟩
      rw [AtomState.lift_of_le hle]
      exact Nat.le_trans hle (Nat.le_add_right _ _)

end Passed

end AtomCompiler
