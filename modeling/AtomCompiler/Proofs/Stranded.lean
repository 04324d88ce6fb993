import AtomCompiler.Proofs.Regions
import AtomCompiler.Optimize.Unreachable

/-!
# Atoms that no run comes to

An atom is stranded if a jump stands before it and no label in between.  These are
the atoms that are taken out as unreachable, and no run comes to one of them: control
does not fall past the jump, and it jumps to labels only.  What is left therefore runs
atom by atom like the list itself, whatever its labels.

* `Stranded` — an atom behind a jump and before the next label;
* `removeUnreachable_eq_filter` — the stranded atoms are the ones taken out;
* `not_stranded_of_step?` — no step leads to a stranded atom;
* `step?_left` — a step of the list is a step of what is left;
* `removeUnreachable_runs_alike` — the two run alike.
-/

namespace AtomCompiler

variable {convention : Convention} {code : List Atom} {place : Nat} {atom : Atom}

/-- An atom behind a jump, with no label in between nor of its own. -/
def Stranded (code : List Atom) (place : Nat) : Prop :=
  ∃ jump < place, code[jump]?.map Atom.fallsThrough = some false ∧
    ∀ later ≤ place, jump < later → code[later]?.bind Atom.label? = none

instance (code : List Atom) (place : Nat) : Decidable (Stranded code place) :=
  inferInstanceAs (Decidable (∃ jump < place, code[jump]?.map Atom.fallsThrough = some false ∧
    ∀ later ≤ place, jump < later → code[later]?.bind Atom.label? = none))

/-! ## Where control can come to -/

/-- The first atom has no jump before it. -/
theorem not_stranded_zero (code : List Atom) : ¬Stranded code 0 := by
  intro h
  obtain ⟨jump, hjump, -⟩ := h
  exact Nat.not_lt_zero jump hjump

/-- A label is never stranded. -/
theorem not_stranded_of_label {name : String} (h : code[place]? = some (.label name)) :
    ¬Stranded code place := by
  intro hstranded
  obtain ⟨jump, hjump, -, hnone⟩ := hstranded
  have hlabel := hnone place (Nat.le_refl place) hjump
  rw [h] at hlabel
  cases hlabel

/-- Control falls into an atom that is not stranded from one that is not. -/
theorem not_stranded_succ (hatom : code[place]? = some atom) (hfalls : atom.fallsThrough = true)
    (h : ¬Stranded code place) : ¬Stranded code (place + 1) := by
  intro hstranded
  obtain ⟨jump, hjump, hfallsNot, hnone⟩ := hstranded
  by_cases heq : jump = place
  · subst heq
    rw [hatom] at hfallsNot
    simp [hfalls] at hfallsNot
  · refine h ⟨jump, by omega, hfallsNot, fun later hle => ?_⟩
    exact hnone later (Nat.le_succ_of_le hle)

/-- **No step leads to a stranded atom,** except from another. -/
theorem not_stranded_of_step? {state next : AtomState} (h : ¬Stranded code state.place)
    (hstep : AtomState.step? convention code state = some next) : ¬Stranded code next.place := by
  obtain ⟨atom, hatom, hcases⟩ := step?_cases hstep
  obtain ⟨hplace, -⟩ | ⟨target, -, hlabel, -⟩ := hcases
  · cases hfalls : atom.fallsThrough with
    | true =>
        rw [hplace]
        exact not_stranded_succ hatom hfalls h
    | false =>
        -- a jump, and so to a label, even if to the next atom
        obtain ⟨target, rfl⟩ : ∃ target, atom = .jump target := by
          cases atom <;> simp_all [Atom.fallsThrough]
        rw [AtomState.step?, hatom] at hstep
        obtain ⟨goal, hgoal, rfl⟩ := Option.map_eq_some_iff.mp hstep
        exact not_stranded_of_label (getElem?_of_labelPlace? hgoal)
  · exact not_stranded_of_label hlabel

/-! ## What is taken out -/

/-- Whether control can fall out of a part of a list, if it can fall into it or not. -/
def fallsOut (reachable : Bool) : List Atom → Bool
  | [] => reachable
  | atom :: rest => fallsOut ((reachable || atom.label?.isSome) && atom.fallsThrough) rest

/-- What is kept of two parts: control falls out of the first into the second, or it does not. -/
theorem keepReachable_append (reachable : Bool) (before rest : List Atom) :
    keepReachable reachable (before ++ rest) =
      keepReachable reachable before ++ keepReachable (fallsOut reachable before) rest := by
  induction before generalizing reachable with
  | nil => rfl
  | cons atom before ih =>
      rw [List.cons_append, keepReachable, keepReachable, fallsOut]
      split
      · next hkept => rw [hkept, Bool.true_and, ih, List.cons_append]
      · next hkept => rw [Bool.eq_false_iff.mpr hkept, Bool.false_and, ih]

/-- Control falls out of a list if it comes to its last atom, and falls through it. -/
theorem fallsOut_concat (reachable : Bool) (before : List Atom) (atom : Atom) :
    fallsOut reachable (before ++ [atom]) =
      ((fallsOut reachable before || atom.label?.isSome) && atom.fallsThrough) := by
  induction before generalizing reachable with
  | nil => rfl
  | cons first before ih => rw [List.cons_append, fallsOut, fallsOut, ih]

/-- Control falls out of the beginning of a list unless a jump stands there with no
label behind it. -/
theorem fallsOut_take_eq_false_iff (hplace : place ≤ code.length) :
    fallsOut true (code.take place) = false ↔
      ∃ jump < place, code[jump]?.map Atom.fallsThrough = some false ∧
        ∀ later < place, jump < later → code[later]?.bind Atom.label? = none := by
  induction place with
  | zero => simp [fallsOut]
  | succ place ih =>
      have hlt : place < code.length := by omega
      have hatom : code[place]? = some code[place] := List.getElem?_eq_getElem hlt
      have ih := ih (by omega)
      rw [List.take_succ_eq_append_getElem hlt, fallsOut_concat]
      generalize code[place] = atom at hatom
      -- the atom in front of the place is the jump itself, or it neither jumps nor is a label
      constructor
      · intro h
        cases hfalls : atom.fallsThrough with
        | false => exact ⟨place, by omega, by rw [hatom, Option.map_some, hfalls], by omega⟩
        | true =>
            simp only [hfalls, Bool.and_true, Bool.or_eq_false_iff, Option.isSome_eq_false_iff,
              Option.isNone_iff_eq_none] at h
            obtain ⟨jump, hjump, hfallsNot, hnone⟩ := ih.mp h.1
            refine ⟨jump, by omega, hfallsNot, fun later hlater hbehind => ?_⟩
            by_cases heq : later = place
            · rw [heq, hatom]
              exact h.2
            · exact hnone later (by omega) hbehind
      · intro h
        obtain ⟨jump, hjump, hfallsNot, hnone⟩ := h
        by_cases heq : jump = place
        · rw [heq, hatom, Option.map_some] at hfallsNot
          rw [Option.some.inj hfallsNot, Bool.and_false]
        · have hlabel : atom.label? = none := by
            have hlater := hnone place (by omega) (by omega)
            rwa [hatom] at hlater
          have hbefore := ih.mpr ⟨jump, by omega, hfallsNot, fun later hlater =>
            hnone later (by omega)⟩
          rw [hbefore, hlabel]
          rfl

/-- **The flag of the pass tells the stranded atoms from the others.** -/
theorem stranded_iff (hatom : code[place]? = some atom) :
    Stranded code place ↔ (fallsOut true (code.take place) || atom.label?.isSome) = false := by
  have hlt : place < code.length := (List.getElem?_eq_some_iff.mp hatom).1
  rw [Bool.or_eq_false_iff, fallsOut_take_eq_false_iff (Nat.le_of_lt hlt)]
  constructor
  · intro h
    obtain ⟨jump, hjump, hfallsNot, hnone⟩ := h
    refine ⟨⟨jump, hjump, hfallsNot, fun later hlater => hnone later (by omega)⟩, ?_⟩
    have hlabel := hnone place (Nat.le_refl place) hjump
    rw [hatom, Option.bind_some] at hlabel
    rw [hlabel]
    rfl
  · intro h
    obtain ⟨⟨jump, hjump, hfallsNot, hnone⟩, hlabel⟩ := h
    refine ⟨jump, hjump, hfallsNot, fun later hle hbehind => ?_⟩
    by_cases heq : later = place
    · rw [heq, hatom]
      simpa using hlabel
    · exact hnone later (by omega) hbehind

/-- Control can come to an atom that is not stranded. -/
theorem flag_of_not_stranded (hatom : code[place]? = some atom) (h : ¬Stranded code place) :
    (fallsOut true (code.take place) || atom.label?.isSome) = true :=
  Bool.of_not_eq_false fun hflag => h ((stranded_iff hatom).mpr hflag)

/-- **What is kept are the atoms that are not stranded.**  By induction over what is still ahead,
with the atoms before it fixed. -/
theorem keepReachable_eq_filter (before rest : List Atom) (hcode : code = before ++ rest) :
    keepReachable (fallsOut true before) rest =
      ((rest.zipIdx before.length).filter fun entry => ¬Stranded code entry.2).map Prod.fst := by
  induction rest generalizing before with
  | nil => rfl
  | cons atom rest ih =>
      -- the flag at an atom is the one behind all atoms before it
      have hatom : code[before.length]? = some atom := by simp [hcode]
      have hbefore : code.take before.length = before := by simp [hcode]
      have hiff := stranded_iff hatom
      have hrest := ih (before ++ [atom]) (by simp [hcode])
      rw [fallsOut_concat, List.length_append, List.length_singleton] at hrest
      rw [hbefore] at hiff
      rw [keepReachable, List.zipIdx_cons]
      split
      · next hkept =>
          have hnot : ¬Stranded code before.length := by simp [hiff, hkept]
          rw [hkept, Bool.true_and] at hrest
          rw [List.filter_cons_of_pos (by simpa using hnot), List.map_cons, hrest]
      · next hkept =>
          have hkept := Bool.eq_false_iff.mpr hkept
          rw [hkept, Bool.false_and] at hrest
          rw [List.filter_cons_of_neg (by simpa using hiff.mpr hkept), hrest]

/-- **The stranded atoms are the ones that are taken out.** -/
theorem removeUnreachable_eq_filter (code : List Atom) :
    removeUnreachable code =
      (code.zipIdx.filter fun entry => ¬Stranded code entry.2).map Prod.fst :=
  keepReachable_eq_filter [] code rfl

/-! ## Places in what is left -/

/-- The place in what is left of an atom that is not stranded. -/
def placeLeft (code : List Atom) (place : Nat) : Nat :=
  (removeUnreachable (code.take place)).length

/-- The end of the list becomes the end of what is left. -/
theorem placeLeft_length (code : List Atom) :
    placeLeft code code.length = (removeUnreachable code).length := by
  rw [placeLeft, List.take_length]

/-- What is left of a list, cut at an atom that is not stranded. -/
theorem removeUnreachable_split (hatom : code[place]? = some atom) (h : ¬Stranded code place) :
    removeUnreachable code = removeUnreachable (code.take place) ++
      atom :: keepReachable atom.fallsThrough (code.drop (place + 1)) := by
  have hkept := flag_of_not_stranded hatom h
  obtain ⟨hlt, rfl⟩ := List.getElem?_eq_some_iff.mp hatom
  have hcut : code = code.take place ++ code[place] :: code.drop (place + 1) := by
    rw [List.getElem_cons_drop, List.take_append_drop]
  have happend := keepReachable_append true (code.take place) (code[place] :: code.drop (place + 1))
  rw [← hcut, keepReachable, if_pos hkept] at happend
  exact happend

/-- **An atom that is not stranded is found at its place,** and so is the end. -/
theorem getElem?_placeLeft (h : ¬Stranded code place) :
    (removeUnreachable code)[placeLeft code place]? = code[place]? := by
  cases hatom : code[place]? with
  | none =>
      have hle : code.length ≤ place := List.getElem?_eq_none_iff.mp hatom
      rw [placeLeft, List.take_of_length_le hle, List.getElem?_eq_none (Nat.le_refl _)]
  | some atom =>
      rw [removeUnreachable_split hatom h, placeLeft, List.getElem?_append_right (Nat.le_refl _),
        Nat.sub_self]
      rfl

/-- Behind an atom that is not stranded the place in what is left is one further on. -/
theorem placeLeft_succ (hatom : code[place]? = some atom) (h : ¬Stranded code place) :
    placeLeft code (place + 1) = placeLeft code place + 1 := by
  have hkept := flag_of_not_stranded hatom h
  rw [placeLeft, List.take_add_one, hatom, Option.toList_some, removeUnreachable,
    keepReachable_append, keepReachable, if_pos hkept, List.length_append]
  rfl

/-- Labels are found at their places. -/
theorem labelPlace?_removeUnreachable (code : List Atom) (name : String) :
    labelPlace? (removeUnreachable code) name =
      (labelPlace? code name).map (placeLeft code) := by
  cases hplace : labelPlace? code name with
  | none =>
      rw [labelPlace?_eq_none_iff] at hplace
      rw [Option.map_none, labelPlace?_eq_none_iff, removeUnreachable, labelsOf_keepReachable]
      exact hplace
  | some place =>
      have hatom := getElem?_of_labelPlace? hplace
      have hfresh : name ∉ labelsOf (removeUnreachable (code.take place)) := by
        rw [removeUnreachable, labelsOf_keepReachable, ← labelPlace?_eq_none_iff, labelPlace?,
          List.findIdx?_take, ← labelPlace?, hplace]
        simp
      rw [removeUnreachable_split hatom (not_stranded_of_label hatom),
        labelPlace?_append_label hfresh]
      rfl

/-! ## Runs of what is left -/

/-- The state at the same atom of what is left. -/
def AtomState.left (code : List Atom) (state : AtomState) : AtomState :=
  ⟨placeLeft code state.place, state.store⟩

/-- **A step of a list is a step of what is left.** -/
theorem step?_left {state : AtomState} (h : ¬Stranded code state.place) :
    AtomState.step? convention (removeUnreachable code) (state.left code) =
      (AtomState.step? convention code state).map (AtomState.left code) := by
  rw [AtomState.step?, AtomState.step?, AtomState.left, getElem?_placeLeft h]
  cases hatom : code[state.place]? with
  | none => rfl
  | some atom =>
      simp only [Option.bind_some]
      rcases AtomState.runAtom?_cases convention atom state.store with
        ⟨later, -, hfall⟩ | ⟨target, -, hjump⟩
      · rw [hfall, hfall code state.place, Option.map_some, AtomState.left, placeLeft_succ hatom h]
      · rw [hjump, hjump code state.place, labelPlace?_removeUnreachable, Option.map_map,
          Option.map_map]
        rfl

/-- **Every run of a list is a run of what is left,** step by step. -/
theorem stepN_left (state : AtomState) (h : ¬Stranded code state.place) (n : Nat) :
    stepN (AtomState.step? convention (removeUnreachable code)) n (state.left code) =
      (stepN (AtomState.step? convention code) n state).map (AtomState.left code) := by
  induction n generalizing state with
  | zero => rfl
  | succ n ih =>
      rw [stepN_succ, stepN_succ, step?_left h]
      cases hstep : AtomState.step? convention code state with
      | none => rfl
      | some next => exact ih next (not_stranded_of_step? h hstep)

/-- **No run comes to a stranded atom.** -/
theorem Visited.not_stranded {start : Store} {state : AtomState}
    (h : Visited convention code start state) : ¬Stranded code state.place :=
  Visited.induction (fun state => ¬Stranded code state.place) (not_stranded_zero code)
    (fun _ _ _ hstate hstep => not_stranded_of_step? hstate hstep) h

/-- **The run of what is left is the run of the list.** -/
theorem stepN_removeUnreachable (convention : Convention) (code : List Atom) (start : Store)
    (n : Nat) :
    stepN (AtomState.step? convention (removeUnreachable code)) n ⟨0, start⟩ =
      (stepN (AtomState.step? convention code) n ⟨0, start⟩).map (AtomState.left code) :=
  stepN_left ⟨0, start⟩ (not_stranded_zero code) n

/-- A run that comes to the end of what is left comes to the end of the list. -/
theorem Visited.place_eq_length {start : Store} {state : AtomState}
    (h : Visited convention code start state)
    (hend : placeLeft code state.place = (removeUnreachable code).length) :
    state.place = code.length := by
  have hle : state.place ≤ code.length := place_le_of_reaches (Nat.zero_le _) h
  have hatom := getElem?_placeLeft h.not_stranded
  rw [hend, List.getElem?_eq_none (Nat.le_refl _)] at hatom
  have hge : code.length ≤ state.place := List.getElem?_eq_none_iff.mp hatom.symm
  omega

/-- The list and what is left end in the same stores. -/
theorem terminates_removeUnreachable_iff {start finish : Store} :
    Terminates convention (removeUnreachable code) start finish ↔
      Terminates convention code start finish := by
  constructor
  · intro h
    obtain ⟨n, hrun⟩ := h
    rw [stepN_removeUnreachable] at hrun
    obtain ⟨state, hstate, heq⟩ := Option.map_eq_some_iff.mp hrun
    have hplace := Visited.place_eq_length ⟨n, hstate⟩ (congrArg AtomState.place heq)
    have hstore : state.store = finish := congrArg AtomState.store heq
    refine ⟨n, hstate.trans (congrArg some ?_)⟩
    rw [← hplace, ← hstore]
  · intro h
    obtain ⟨n, hrun⟩ := h
    refine ⟨n, ?_⟩
    rw [stepN_removeUnreachable, hrun, Option.map_some, AtomState.left, placeLeft_length]

/-- A run goes on forever without the stranded atoms exactly if it does with them. -/
theorem runsForever_removeUnreachable_iff {start : Store} :
    RunsForever (AtomState.step? convention (removeUnreachable code)) ⟨0, start⟩ ↔
      RunsForever (AtomState.step? convention code) ⟨0, start⟩ := by
  simp only [RunsForever, stepN_removeUnreachable, Option.isSome_map]

/-- **Taking out unreachable atoms preserves meaning.**  Whatever the labels of a list,
its run and the run of what is left are at the same atom with the same store at every
time; so both end in the same store, or both run forever.  Every label is left; what is
taken out are the stranded atoms, and no run of the list comes to one of them. -/
theorem removeUnreachable_runs_alike (convention : Convention) (code : List Atom) (start : Store) :
    (∀ n, (stepN (AtomState.step? convention (removeUnreachable code)) n ⟨0, start⟩).map
        (fun state => ((removeUnreachable code)[state.place]?, state.store)) =
      (stepN (AtomState.step? convention code) n ⟨0, start⟩).map
        fun state => (code[state.place]?, state.store)) ∧
    (∀ finish, Terminates convention (removeUnreachable code) start finish ↔
      Terminates convention code start finish) ∧
    (RunsForever (AtomState.step? convention (removeUnreachable code)) ⟨0, start⟩ ↔
      RunsForever (AtomState.step? convention code) ⟨0, start⟩) ∧
    labelsOf (removeUnreachable code) = labelsOf code ∧
    removeUnreachable code =
      (code.zipIdx.filter fun entry => ¬Stranded code entry.2).map Prod.fst ∧
    ∀ state, Visited convention code start state → ¬Stranded code state.place := by
  refine ⟨fun n => ?_, fun finish => terminates_removeUnreachable_iff,
    runsForever_removeUnreachable_iff, labelsOf_keepReachable true code,
    removeUnreachable_eq_filter code, fun state h => h.not_stranded⟩
  rw [stepN_removeUnreachable, Option.map_map]
  refine Option.map_congr fun state hstate => ?_
  have hvisited : Visited convention code start state := ⟨n, hstate⟩
  simp only [Function.comp_apply, AtomState.left, getElem?_placeLeft hvisited.not_stranded]

end AtomCompiler
