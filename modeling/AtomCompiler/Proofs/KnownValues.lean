import AtomCompiler.Execution.Atoms
import AtomCompiler.Optimize.Simulate
import AtomCompiler.Proofs.Layout

/-!
# Stores that known values are right about

Known values are right about a store if every operand with a known value has
that value in the store.  Whatever is computed from them is then what a run
computes, as long as numbers are negated by their sign.

* `Values.Agrees.set`, `Values.Agrees.of_forgotten` — agreement after an
  assignment, and after a change of variables that were forgotten;
* `Values.simulateAtom?_cases` — everything that an atom can do ahead of time;
* `Values.simulateFrom?_keeps` — running a loop ahead of time is running it.
-/

namespace AtomCompiler

namespace Values

/-- Every known value is the value in the store. -/
def Agrees (convention : Convention) (values : Values) (store : Store) : Prop :=
  ∀ operand value, values.value? operand = some value → convention.value store operand = value

variable {convention : Convention} {values : Values} {store : Store}

/-- At the start every variable is known to be zero. -/
theorem agrees_zero (convention : Convention) : Agrees convention {} Store.zero := by
  intro operand value h
  by_cases hliteral : isLiteral operand
  · rw [value?_of_isLiteral hliteral] at h
    rw [Convention.value, if_pos hliteral, Convention.literal, h]
    rfl
  · rw [Convention.value, if_neg hliteral]
    simpa [value?, hliteral, Store.zero] using h

/-- Two records of the same values agree with the same stores. -/
theorem Agrees.of_value? {other : Values} (h : Agrees convention values store)
    (hle : ∀ operand value, other.value? operand = some value →
      values.value? operand = some value) : Agrees convention other store :=
  fun operand value hvalue => h operand value (hle operand value hvalue)

/-- The value that a variable is assigned may be recorded. -/
theorem Agrees.set (h : Agrees convention values store) {name : String} {known : Option Float}
    {value : Float} (hknown : ∀ number, known = some number → value = number) :
    Agrees convention (values.set name known) (store.set name value) := by
  intro operand number hnumber
  by_cases hliteral : isLiteral operand
  · rw [value?_of_isLiteral hliteral] at hnumber
    rw [Convention.value, if_pos hliteral, Convention.literal, hnumber]
    rfl
  · rw [Convention.value, if_neg hliteral]
    by_cases hname : operand = name
    · subst hname
      rw [value?_set_self (Bool.eq_false_iff.mpr hliteral)] at hnumber
      rw [Store.set_self]
      exact hknown number hnumber
    · rw [value?_set_of_ne (Ne.symm hname)] at hnumber
      have hvalue := h operand number hnumber
      rw [Convention.value, if_neg hliteral] at hvalue
      rw [Store.set_of_ne hname, hvalue]

/-- What is known after a variable was forgotten was known before, and not of that variable. -/
theorem value?_of_set_none {name operand : String} {value : Float}
    (h : (values.set name none).value? operand = some value) :
    values.value? operand = some value ∧ (isLiteral operand = false → operand ≠ name) := by
  by_cases hliteral : isLiteral operand
  · rw [value?_of_isLiteral hliteral] at h ⊢
    exact ⟨h, fun hfalse => absurd hliteral (by simp [hfalse])⟩
  · by_cases hname : operand = name
    · subst hname
      rw [value?_set_self (Bool.eq_false_iff.mpr hliteral)] at h
      cases h
    · rw [value?_set_of_ne (Ne.symm hname)] at h
      exact ⟨h, fun _ => hname⟩

/-- What is still known after some variables were forgotten was known before,
and it is about other variables. -/
theorem value?_of_forget {names : List String} {operand : String} {value : Float}
    (h : (values.forget names).value? operand = some value) :
    values.value? operand = some value ∧ (isLiteral operand = false → operand ∉ names) := by
  induction names generalizing values with
  | nil => exact ⟨h, fun _ => List.not_mem_nil⟩
  | cons name names ih =>
      obtain ⟨hset, hnames⟩ := ih h
      obtain ⟨hvalue, hname⟩ := value?_of_set_none hset
      refine ⟨hvalue, fun hliteral hmem => ?_⟩
      rcases List.mem_cons.mp hmem with heq | hmem
      · exact hname hliteral heq
      · exact hnames hliteral hmem

/-- What is still known after some variables were forgotten stays right when they
change again. -/
theorem Agrees.of_forgotten {names : List String}
    (h : Agrees convention (values.forget names) store) {later : Store}
    (hlater : ∀ name, name ∉ names → later name = store name) :
    Agrees convention (values.forget names) later := by
  intro operand value hvalue
  obtain ⟨-, hnames⟩ := value?_of_forget hvalue
  have hstore := h operand value hvalue
  by_cases hliteral : isLiteral operand
  · rw [Convention.value, if_pos hliteral] at hstore ⊢
    exact hstore
  · rw [Convention.value, if_neg hliteral] at hstore ⊢
    rw [hlater operand (hnames (Bool.eq_false_iff.mpr hliteral)), hstore]

/-- Forgetting is always right. -/
theorem Agrees.forget (h : Agrees convention values store) (names : List String) :
    Agrees convention (values.forget names) store :=
  h.of_value? fun _ _ hvalue => (value?_of_forget hvalue).1

/-- A record stays right if a variable is forgotten. -/
theorem Agrees.set_none (h : Agrees convention values store) (name : String) :
    Agrees convention (values.set name none) store :=
  h.of_value? fun _ _ hvalue => (value?_of_set_none hvalue).1

/-- A comparison that is known has the known outcome. -/
theorem Agrees.holds_of_outcome? (h : Agrees convention values store) {left right : String}
    {comparison : Comparison} {outcome : Bool}
    (houtcome : values.outcome? left comparison right = some outcome) :
    comparison.holds (convention.value store left) (convention.value store right) = outcome := by
  obtain ⟨leftValue, hleft, houtcome⟩ := Option.bind_eq_some_iff.mp houtcome
  obtain ⟨rightValue, hright, houtcome⟩ := Option.bind_eq_some_iff.mp houtcome
  rw [h left leftValue hleft, h right rightValue hright]
  exact Option.some.inj houtcome

/-! ## Computed assignments -/

/-- The store after an atom that assigns a variable. -/
theorem Agrees.runAtom?_assigned (hnegate : convention.negate = Neg.neg)
    (h : Agrees convention values store) {atom : Atom} {name : String}
    (hname : atom.assigned? = some name) (code : List Atom) (place : Nat) :
    ∃ value, (∀ number, values.assigned? atom = some number → value = number) ∧
      AtomState.runAtom? convention code ⟨place, store⟩ atom =
        some ⟨place + 1, store.set name value⟩ := by
  cases atom with
  | arithmetic operation left right result =>
      obtain rfl := Option.some.inj hname
      refine ⟨_, ?_, rfl⟩
      intro number hnumber
      obtain ⟨leftValue, hleft, hnumber⟩ := Option.bind_eq_some_iff.mp hnumber
      obtain ⟨rightValue, hright, hnumber⟩ := Option.bind_eq_some_iff.mp hnumber
      rw [h left leftValue hleft, h right rightValue hright, Convention.result, hnumber]
      rfl
  | negate source result =>
      obtain rfl := Option.some.inj hname
      refine ⟨_, ?_, rfl⟩
      intro number hnumber
      obtain ⟨sourceValue, hsource, rfl⟩ := Option.map_eq_some_iff.mp hnumber
      rw [h source sourceValue hsource, hnegate]
  | move source result =>
      obtain rfl := Option.some.inj hname
      refine ⟨_, ?_, rfl⟩
      intro number hnumber
      exact h source number hnumber
  | test left right comparison target => cases hname
  | jump target => cases hname
  | label name => cases hname

/-! ## Loops that are run ahead of time -/

/-- A label that is defined once is the last of its name. -/
theorem lastLabel?_eq_labelPlace? {code : List Atom} (hlabels : (labelsOf code).Nodup)
    (name : String) : lastLabel? name code = labelPlace? code name := by
  induction code with
  | nil => rfl
  | cons atom code ih =>
      rw [labelsOf_cons, List.nodup_append] at hlabels
      rw [lastLabel?, ih hlabels.2.1, labelPlace?, labelPlace?, List.findIdx?_cons]
      by_cases hatom : atom.label? = some name
      · have hnone : code.findIdx? (fun atom => atom.label? = some name) = none := by
          rw [List.findIdx?_eq_none_iff]
          intro other hother
          have hne : other.label? ≠ some name := by
            intro hlabel
            have hmem : name ∈ labelsOf code := List.mem_filterMap.mpr ⟨other, hother, hlabel⟩
            exact hlabels.2.2 name (by simp [hatom]) name hmem rfl
          simpa using hne
        simp [hatom, hnone]
      · simp only [hatom, decide_false, Bool.false_eq_true, if_false]
        cases code.findIdx? (fun atom => atom.label? = some name) <;> rfl

/-- A jump ahead of time goes where the jump goes. -/
theorem goto?_of_lastLabel? {code : List Atom} (hlabels : (labelsOf code).Nodup)
    {target : String} {goal : Nat} (h : lastLabel? target code = some goal) (place : Nat)
    (store : Store) :
    AtomState.goto? code ⟨place, store⟩ target = some ⟨goal, store⟩ ∧ goal < code.length := by
  rw [lastLabel?_eq_labelPlace? hlabels] at h
  exact ⟨by rw [AtomState.goto?, h]; rfl, labelPlace?_lt h⟩

/-- **Everything that an atom can do ahead of time.**  It is run as it would be, and
what it assigns is recorded. -/
theorem simulateAtom?_cases (hnegate : convention.negate = Neg.neg) {code : List Atom}
    (hlabels : (labelsOf code).Nodup) (h : Agrees convention values store) {atom : Atom}
    {place next : Nat} {after : Values} (hplace : place + 1 < code.length)
    (hsimulate : values.simulateAtom? code place atom = some (after, next)) :
    next < code.length ∧
      ((after = values ∧
          AtomState.runAtom? convention code ⟨place, store⟩ atom = some ⟨next, store⟩) ∨
        ∃ name value, atom.assigned? = some name ∧ after = values.set name (some value) ∧
          AtomState.runAtom? convention code ⟨place, store⟩ atom =
            some ⟨next, store.set name value⟩) := by
  -- an atom that assigns a variable: what it assigns is known, or the run is given up
  have hassign : ∀ name, atom.assigned? = some name → ∀ number,
      values.assigned? atom = some number → (values.set name (some number), place + 1) =
        (after, next) → next < code.length ∧ ∃ name value, atom.assigned? = some name ∧
          after = values.set name (some value) ∧
          AtomState.runAtom? convention code ⟨place, store⟩ atom =
            some ⟨next, store.set name value⟩ := by
    intro name hname number hnumber heq
    obtain ⟨value, hvalue, hrun⟩ := h.runAtom?_assigned hnegate hname code place
    obtain ⟨rfl, rfl⟩ := Prod.mk.inj heq
    obtain rfl := hvalue number hnumber
    exact ⟨hplace, name, value, hname, rfl, hrun⟩
  cases atom with
  | test left right comparison target =>
      obtain ⟨outcome, houtcome, hsimulate⟩ := Option.bind_eq_some_iff.mp hsimulate
      have hholds := h.holds_of_outcome? houtcome
      cases outcome with
      | true =>
          obtain ⟨rfl, rfl⟩ := Prod.mk.inj (Option.some.inj hsimulate)
          exact ⟨hplace, Or.inl ⟨rfl, by simp [AtomState.runAtom?, hholds, AtomState.next]⟩⟩
      | false =>
          obtain ⟨goal, hgoal, hsimulate⟩ := Option.bind_eq_some_iff.mp hsimulate
          obtain ⟨rfl, rfl⟩ := Prod.mk.inj (Option.some.inj hsimulate)
          obtain ⟨hgoto, hlt⟩ := goto?_of_lastLabel? hlabels hgoal place store
          exact ⟨hlt, Or.inl ⟨rfl, by simp [AtomState.runAtom?, hholds, hgoto]⟩⟩
  | jump target =>
      obtain ⟨goal, hgoal, hsimulate⟩ := Option.bind_eq_some_iff.mp hsimulate
      obtain ⟨rfl, rfl⟩ := Prod.mk.inj (Option.some.inj hsimulate)
      obtain ⟨hgoto, hlt⟩ := goto?_of_lastLabel? hlabels hgoal place store
      exact ⟨hlt, Or.inl ⟨rfl, hgoto⟩⟩
  | label name =>
      obtain ⟨rfl, rfl⟩ := Prod.mk.inj (Option.some.inj hsimulate)
      exact ⟨hplace, Or.inl ⟨rfl, rfl⟩⟩
  | arithmetic operation left right result =>
      obtain ⟨number, hnumber, hsimulate⟩ := Option.bind_eq_some_iff.mp hsimulate
      exact (hassign result rfl number hnumber (Option.some.inj hsimulate)).imp_right Or.inr
  | negate source result =>
      obtain ⟨number, hnumber, hsimulate⟩ := Option.bind_eq_some_iff.mp hsimulate
      exact (hassign result rfl number hnumber (Option.some.inj hsimulate)).imp_right Or.inr
  | move source result =>
      obtain ⟨number, hnumber, hsimulate⟩ := Option.bind_eq_some_iff.mp hsimulate
      exact (hassign result rfl number hnumber (Option.some.inj hsimulate)).imp_right Or.inr

/-- **Running a loop ahead of time is running it,** up to its last atom.  The run has not
come to the last atom before; and what is kept whenever a variable of the loop gets its
value both in the record and in the store holds of the two at the end. -/
theorem simulateFrom?_keeps (hnegate : convention.negate = Neg.neg) {code : List Atom}
    (hlabels : (labelsOf code).Nodup) (property : Values → Store → Prop)
    (hagrees : ∀ values store, property values store → Agrees convention values store)
    (hset : ∀ values store name value, name ∈ assignedOf code → property values store →
      property (values.set name (some value)) (store.set name value))
    {steps place : Nat} {after : Values} (h : property values store)
    (hplace : place < code.length)
    (hsimulate : simulateFrom? code steps values place = some after) :
    ∃ n later, n < steps ∧
      stepN (AtomState.step? convention code) n ⟨place, store⟩ = some ⟨code.length - 1, later⟩ ∧
      property after later ∧
      ∀ m < n, ∃ state, stepN (AtomState.step? convention code) m ⟨place, store⟩ = some state ∧
        state.place + 1 < code.length := by
  -- over the steps that may still be made; the record is right before each of them
  induction steps generalizing values store place with
  | zero => cases hsimulate
  | succ steps ih =>
      rw [simulateFrom?] at hsimulate
      split at hsimulate
      · next hlast =>
          obtain rfl := Option.some.inj hsimulate
          obtain rfl : place = code.length - 1 := by omega
          exact ⟨0, store, Nat.succ_pos steps, rfl, h, fun m hm => absurd hm (Nat.not_lt_zero m)⟩
      · next hinside =>
          obtain ⟨atom, hatom, hsimulate⟩ := Option.bind_eq_some_iff.mp hsimulate
          obtain ⟨⟨middle, next⟩, hmiddle, hsimulate⟩ := Option.bind_eq_some_iff.mp hsimulate
          obtain ⟨hnext, hcases⟩ :=
            simulateAtom?_cases hnegate hlabels (hagrees _ _ h) (by omega) hmiddle
          obtain ⟨store', hrun, hkept⟩ : ∃ store',
              AtomState.runAtom? convention code ⟨place, store⟩ atom = some ⟨next, store'⟩ ∧
                property middle store' := by
            rcases hcases with ⟨rfl, hrun⟩ | ⟨name, value, hname, rfl, hrun⟩
            · exact ⟨store, hrun, h⟩
            · have hmem : name ∈ assignedOf code :=
                List.mem_filterMap.mpr ⟨atom, List.mem_of_getElem? hatom, hname⟩
              exact ⟨_, hrun, hset values store name value hmem h⟩
          obtain ⟨n, later, hn, hsteps, hafter, hbefore⟩ := ih hkept hnext hsimulate
          have hstep : AtomState.step? convention code ⟨place, store⟩ = some ⟨next, store'⟩ := by
            rw [AtomState.step?, hatom]
            exact hrun
          refine ⟨n + 1, later, by omega, by rw [stepN_succ, hstep]; exact hsteps, hafter, ?_⟩
          intro m hm
          cases m with
          | zero => exact ⟨⟨place, store⟩, rfl, by simp only; omega⟩
          | succ m =>
              obtain ⟨state, hstate, hlt⟩ := hbefore m (by omega)
              exact ⟨state, by rw [stepN_succ, hstep]; exact hstate, hlt⟩

/-- What was found out ahead of time is right at the last atom of the loop. -/
theorem simulateFrom?_stepN (hnegate : convention.negate = Neg.neg) {code : List Atom}
    (hlabels : (labelsOf code).Nodup) {steps place : Nat} {after : Values}
    (h : Agrees convention values store) (hplace : place < code.length)
    (hsimulate : simulateFrom? code steps values place = some after) :
    ∃ n later, n < steps ∧
      stepN (AtomState.step? convention code) n ⟨place, store⟩ = some ⟨code.length - 1, later⟩ ∧
      Agrees convention after later := by
  obtain ⟨n, later, hn, hrun, hafter, -⟩ :=
    simulateFrom?_keeps hnegate hlabels (Agrees convention) (fun _ _ h => h)
      (fun _ _ _ _ _ h => h.set fun _ heq => Option.some.inj heq) h hplace hsimulate
  exact ⟨n, later, hn, hrun, hafter⟩

end Values

end AtomCompiler
