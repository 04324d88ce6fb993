/-!
# Runs of a step function

A machine is given by a step function that has no value where the machine stops.
`stepN` takes a number of steps, and `Reaches` says that some number of steps
leads from one state to another.

* `stepN_add` — runs can be cut and joined;
* `Reaches.eq_of_stopped` — a run stops in at most one state.
-/

namespace AtomCompiler

variable {σ : Type}

/-- The state after a number of steps, unless the machine stops before. -/
def stepN (step : σ → Option σ) : Nat → σ → Option σ
  | 0, state => some state
  | n + 1, state => (step state).bind (stepN step n)

/-- Some number of steps leads from the first state to the second. -/
def Reaches (step : σ → Option σ) (start finish : σ) : Prop :=
  ∃ n, stepN step n start = some finish

/-- The machine never stops. -/
def RunsForever (step : σ → Option σ) (start : σ) : Prop :=
  ∀ n, (stepN step n start).isSome

@[simp] theorem stepN_zero (step : σ → Option σ) (state : σ) :
    stepN step 0 state = some state := rfl

@[simp] theorem stepN_succ (step : σ → Option σ) (n : Nat) (state : σ) :
    stepN step (n + 1) state = (step state).bind (stepN step n) := rfl

/-- So many steps and then so many more. -/
theorem stepN_add (step : σ → Option σ) (m n : Nat) (state : σ) :
    stepN step (m + n) state = (stepN step m state).bind (stepN step n) := by
  induction m generalizing state with
  | zero => simp
  | succ m ih =>
      rw [Nat.succ_add, stepN_succ, stepN_succ]
      cases h : step state with
      | none => rfl
      | some next => simpa using ih next

/-- Every beginning of a finite run is a run. -/
theorem stepN_isSome_of_le {step : σ → Option σ} {m n : Nat} {start : σ} (hle : m ≤ n)
    (h : (stepN step n start).isSome) : (stepN step m start).isSome := by
  obtain ⟨k, rfl⟩ := Nat.exists_eq_add_of_le hle
  rw [stepN_add] at h
  cases hm : stepN step m start with
  | none => simp [hm] at h
  | some middle => rfl

/-- A state is reached from itself by no step. -/
theorem Reaches.refl (step : σ → Option σ) (state : σ) : Reaches step state state :=
  ⟨0, rfl⟩

/-- What is reached from a reached state is reached. -/
theorem Reaches.trans {step : σ → Option σ} {start middle finish : σ}
    (h₁ : Reaches step start middle) (h₂ : Reaches step middle finish) :
    Reaches step start finish := by
  obtain ⟨m, hm⟩ := h₁
  obtain ⟨n, hn⟩ := h₂
  exact ⟨m + n, by rw [stepN_add, hm]; exact hn⟩

/-- One step first, and then a run. -/
theorem Reaches.head {step : σ → Option σ} {start next finish : σ}
    (hstep : step start = some next) (h : Reaches step next finish) :
    Reaches step start finish := by
  obtain ⟨n, hn⟩ := h
  exact ⟨n + 1, by rw [stepN_succ, hstep]; exact hn⟩

/-- **A run stops in one state.** -/
theorem Reaches.eq_of_stopped {step : σ → Option σ} {start finish₁ finish₂ : σ}
    (h₁ : Reaches step start finish₁) (h₂ : Reaches step start finish₂)
    (hstop₁ : step finish₁ = none) (hstop₂ : step finish₂ = none) : finish₁ = finish₂ := by
  obtain ⟨m, hm⟩ := h₁
  obtain ⟨n, hn⟩ := h₂
  induction m generalizing start n with
  | zero =>
      obtain rfl := Option.some.inj hm
      cases n with
      | zero => exact Option.some.inj hn
      | succ n => simp [hstop₁] at hn
  | succ m ih =>
      cases n with
      | zero =>
          obtain rfl := Option.some.inj hn
          simp [hstop₂] at hm
      | succ n =>
          cases hstep : step start with
          | none => simp [hstep] at hm
          | some next =>
              rw [stepN_succ, hstep] at hm hn
              exact ih hm n hn

/-- A machine that stops somewhere does not run forever. -/
theorem Reaches.not_runsForever {step : σ → Option σ} {start finish : σ}
    (h : Reaches step start finish) (hstop : step finish = none) : ¬RunsForever step start := by
  intro hforever
  obtain ⟨n, hn⟩ := h
  have := hforever (n + 1)
  rw [stepN_add, hn] at this
  simp [hstop] at this

end AtomCompiler
