import AtomCompiler.Execution.Statements

/-!
# Runs that stop and runs that go on

A run of a step function stops somewhere or goes on forever, and a run that
stops passes through every state that is reached before.  For statements the two
ways to give them a meaning agree.

* `stops_or_runsForever` — there is no third way for a run to end;
* `stepN_of_reached` — what is left of a run that stops, from a state it
  reaches;
* `executes_iff_reaches` — a statement leads to a store exactly when its run
  ends there;
* `diverges_iff` — a run goes on forever exactly when the statement leads to no
  store.
-/

namespace AtomCompiler

section Steps

variable {σ : Type} {step : σ → Option σ}

/-- **A run stops or goes on forever.** -/
theorem stops_or_runsForever (step : σ → Option σ) (start : σ) :
    (∃ finish, Reaches step start finish ∧ step finish = none) ∨ RunsForever step start := by
  by_cases hforever : RunsForever step start
  · exact Or.inr hforever
  · left
    obtain ⟨n, hn⟩ := Classical.not_forall.mp hforever
    induction n with
    | zero => simp at hn
    | succ n ih =>
        cases hrun : stepN step n start with
        | none => exact ih (by simp [hrun])
        | some finish =>
            refine ⟨finish, ⟨n, hrun⟩, ?_⟩
            rw [stepN_add, hrun] at hn
            cases hstep : step finish with
            | none => rfl
            | some next => simp [hstep] at hn

/-- What is left of a run that stops, from a state that it reaches. -/
theorem stepN_of_reached {m n : Nat} {start middle finish : σ}
    (hreach : stepN step m start = some middle)
    (hrun : stepN step n start = some finish) (hstop : step finish = none) :
    ∃ k, n = m + k ∧ stepN step k middle = some finish := by
  by_cases hle : m ≤ n
  · obtain ⟨k, rfl⟩ := Nat.exists_eq_add_of_le hle
    rw [stepN_add, hreach] at hrun
    exact ⟨k, rfl, hrun⟩
  · -- the run would go on past the state where it stops
    obtain ⟨k, rfl⟩ := Nat.exists_eq_add_of_le (Nat.lt_of_not_le hle)
    have hsum : n + 1 + k = n + (k + 1) := by omega
    rw [hsum, stepN_add, hrun] at hreach
    simp [hstop] at hreach

/-- A run that stops takes a step wherever there is one to take. -/
theorem stepN_of_step {n : Nat} {start next finish : σ} (hstep : step start = some next)
    (hrun : stepN step n start = some finish) (hstop : step finish = none) :
    ∃ k, n = k + 1 ∧ stepN step k next = some finish := by
  have hreach : stepN step 1 start = some next := by simp [hstep]
  obtain ⟨k, hk, hrest⟩ := stepN_of_reached hreach hrun hstop
  exact ⟨k, by omega, hrest⟩

/-- A run that begins where it stops takes no step. -/
theorem eq_of_stepN_of_stopped {n : Nat} {start finish : σ}
    (hrun : stepN step n start = some finish) (hstop : step start = none) : finish = start := by
  cases n with
  | zero => exact (Option.some.inj hrun).symm
  | succ n => simp [hstop] at hrun

/-- One step is a run. -/
theorem Reaches.single {start next : σ} (hstep : step start = some next) :
    Reaches step start next :=
  Reaches.head hstep (Reaches.refl step next)

/-- A run that goes on forever goes on forever after each step. -/
theorem RunsForever.next {start : σ} (h : RunsForever step start) :
    ∃ next, step start = some next ∧ RunsForever step next := by
  cases hstep : step start with
  | none =>
      have hone := h 1
      simp [hstep] at hone
  | some next =>
      refine ⟨next, rfl, fun n => ?_⟩
      have hmore := h (n + 1)
      rw [stepN_succ, hstep] at hmore
      exact hmore

/-- Where a property always leads to a step that keeps it, the run goes on
forever. -/
theorem runsForever_of_invariant (property : σ → Prop)
    (hnext : ∀ state, property state → ∃ next, step state = some next ∧ property next)
    {start : σ} (hstart : property start) : RunsForever step start := by
  intro n
  induction n generalizing start with
  | zero => rfl
  | succ n ih =>
      obtain ⟨next, hstep, hkeeps⟩ := hnext start hstart
      rw [stepN_succ, hstep]
      exact ih hkeeps

/-- A run that shows less of each state. -/
theorem map_stepN {τ : Type} {step' : τ → Option τ} {view : σ → τ}
    (hview : ∀ state, (step state).map view = step' (view state)) (n : Nat) (start : σ) :
    (stepN step n start).map view = stepN step' n (view start) := by
  induction n generalizing start with
  | zero => rfl
  | succ n ih =>
      rw [stepN_succ, stepN_succ, ← hview]
      cases step start with
      | none => rfl
      | some next => exact ih next

end Steps

variable {convention : Convention}

/-- Statements one after another, as one statement. -/
def Statement.block (statements : List Statement) : Statement :=
  statements.foldr Statement.seq Statement.skip

/-- A statement that ends is done, and what comes after it is left to do. -/
theorem Executes.reaches {statement : Statement} {start finish : Store}
    (h : Executes convention statement start finish) (todo : List Statement) :
    Reaches (StatementState.step? convention) ⟨statement :: todo, start⟩ ⟨todo, finish⟩ := by
  induction h generalizing todo with
  | skip store => exact Reaches.single rfl
  | seq _ _ ihFirst ihRest =>
      exact Reaches.head rfl ((ihFirst _).trans (ihRest todo))
  | assign assignment store => exact Reaches.single rfl
  | ifThenTrue hholds _ ih =>
      exact Reaches.head (by rw [StatementState.step?, if_pos hholds]) (ih todo)
  | ifThenFalse hfails => exact Reaches.single (by simp [StatementState.step?, hfails])
  | ifElseTrue hholds _ ih =>
      exact Reaches.head (by rw [StatementState.step?, if_pos hholds]) (ih todo)
  | ifElseFalse hfails _ ih =>
      exact Reaches.head (by simp [StatementState.step?, hfails]) (ih todo)
  | whileTrue hholds _ _ ihBody ihLoop =>
      exact Reaches.head (by rw [StatementState.step?, if_pos hholds])
        ((ihBody _).trans (ihLoop todo))
  | whileFalse hfails => exact Reaches.single (by simp [StatementState.step?, hfails])
  | forLoop _ ih => exact Reaches.head rfl (ih todo)

/-- If a step leads to statements that end in a store, the statements before the
step end there too. -/
theorem executes_block_of_step {state next : StatementState} {finish : Store}
    (hstep : StatementState.step? convention state = some next)
    (h : Executes convention (.block next.todo) next.store finish) :
    Executes convention (.block state.todo) state.store finish := by
  -- what is still to be done is a block; a step replaces its first statement by what it stands for
  obtain ⟨todo, store⟩ := state
  cases todo with
  | nil => simp [StatementState.step?] at hstep
  | cons statement todo =>
      cases statement with
      | skip =>
          obtain rfl := Option.some.inj hstep
          exact .seq (.skip store) h
      | seq first rest =>
          obtain rfl := Option.some.inj hstep
          obtain _ | ⟨hfirst, _ | ⟨hrest, htodo⟩⟩ := h
          exact .seq (.seq hfirst hrest) htodo
      | assign assignment =>
          obtain rfl := Option.some.inj hstep
          exact .seq (.assign assignment store) h
      | ifThen condition body =>
          obtain rfl := Option.some.inj hstep
          cases hholds : condition.holds convention store with
          | true =>
              simp only [hholds, if_true] at h
              obtain _ | ⟨hbody, htodo⟩ := h
              exact .seq (.ifThenTrue hholds hbody) htodo
          | false =>
              simp only [hholds, Bool.false_eq_true, if_false] at h
              exact .seq (.ifThenFalse hholds) h
      | ifElse condition body other =>
          obtain rfl := Option.some.inj hstep
          cases hholds : condition.holds convention store with
          | true =>
              simp only [hholds, if_true] at h
              obtain _ | ⟨hbody, htodo⟩ := h
              exact .seq (.ifElseTrue hholds hbody) htodo
          | false =>
              simp only [hholds, Bool.false_eq_true, if_false] at h
              obtain _ | ⟨hother, htodo⟩ := h
              exact .seq (.ifElseFalse hholds hother) htodo
      | whileLoop condition body =>
          obtain rfl := Option.some.inj hstep
          cases hholds : condition.holds convention store with
          | true =>
              simp only [hholds, if_true] at h
              obtain _ | ⟨hbody, _ | ⟨hloop, htodo⟩⟩ := h
              exact .seq (.whileTrue hholds hbody hloop) htodo
          | false =>
              simp only [hholds, Bool.false_eq_true, if_false] at h
              exact .seq (.whileFalse hholds) h
      | forLoop init condition step body =>
          obtain rfl := Option.some.inj hstep
          obtain _ | ⟨hloop, htodo⟩ := h
          exact .seq (.forLoop hloop) htodo

/-- A run that ends has executed everything that was to do. -/
theorem executes_block_of_stepN {n : Nat} {state : StatementState} {finish : Store}
    (hrun : stepN (StatementState.step? convention) n state = some ⟨[], finish⟩) :
    Executes convention (.block state.todo) state.store finish := by
  induction n generalizing state with
  | zero =>
      obtain rfl := Option.some.inj hrun
      exact .skip finish
  | succ n ih =>
      rw [stepN_succ] at hrun
      obtain ⟨next, hstep, hrest⟩ := Option.bind_eq_some_iff.mp hrun
      exact executes_block_of_step hstep (ih hrest)

/-- **The two meanings of a statement agree.** -/
theorem executes_iff_reaches {statement : Statement} {start finish : Store} :
    Executes convention statement start finish ↔
      Reaches (StatementState.step? convention) ⟨[statement], start⟩ ⟨[], finish⟩ := by
  constructor
  · intro h
    exact h.reaches []
  · rintro ⟨n, hrun⟩
    obtain _ | ⟨hstatement, hskip⟩ := executes_block_of_stepN hrun
    cases hskip
    exact hstatement

/-- A run of statements stops only when nothing is left to do. -/
theorem StatementState.todo_eq_nil_of_step?_eq_none {state : StatementState}
    (h : StatementState.step? convention state = none) : state.todo = [] := by
  obtain ⟨todo, store⟩ := state
  cases todo with
  | nil => rfl
  | cons statement todo => cases statement <;> simp [StatementState.step?] at h

/-- **A statement that never ends leads to no store,** and the other way around. -/
theorem diverges_iff {statement : Statement} {start : Store} :
    Diverges convention statement start ↔
      ¬∃ finish, Executes convention statement start finish := by
  constructor
  · rintro hforever ⟨finish, h⟩
    exact (h.reaches []).not_runsForever rfl hforever
  · intro hnone
    rcases stops_or_runsForever (StatementState.step? convention) ⟨[statement], start⟩ with
      ⟨⟨todo, finish⟩, hreach, hstop⟩ | hforever
    · obtain rfl : todo = [] := StatementState.todo_eq_nil_of_step?_eq_none hstop
      exact (hnone ⟨finish, executes_iff_reaches.mpr hreach⟩).elim
    · exact hforever

end AtomCompiler
