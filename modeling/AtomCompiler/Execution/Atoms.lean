import AtomCompiler.Execution.Steps
import AtomCompiler.Execution.Store

/-!
# Runs of atom lists

An atom list is run from its first atom.  The state is the place in the list and
the store; the run stops where control falls off the end, and it is stuck where
a jump has no label to go to.
-/

namespace AtomCompiler

/-- The place of the first definition of a label. -/
def labelPlace? (code : List Atom) (name : String) : Option Nat :=
  code.findIdx? fun atom => atom.label? = some name

/-- A place in an atom list, and the values of the variables there. -/
structure AtomState where
  place : Nat
  store : Store

namespace AtomState

/-- Falls through to the next atom, with a new store. -/
def next (state : AtomState) (store : Store) : AtomState :=
  ⟨state.place + 1, store⟩

/-- Goes to a label, if there is one. -/
def goto? (code : List Atom) (state : AtomState) (target : String) : Option AtomState :=
  (labelPlace? code target).map fun place => ⟨place, state.store⟩

/-- Runs an atom. -/
def runAtom? (convention : Convention) (code : List Atom) (state : AtomState) :
    Atom → Option AtomState
  | .arithmetic operation left right result =>
    let value := convention.result operation (convention.value state.store left)
      (convention.value state.store right)
    some (state.next (state.store.set result value))
  | .negate source result =>
    let value := convention.negate (convention.value state.store source)
    some (state.next (state.store.set result value))
  | .move source result =>
    some (state.next (state.store.set result (convention.value state.store source)))
  | .test left right comparison target =>
    let left := convention.value state.store left
    let right := convention.value state.store right
    if comparison.holds left right then some (state.next state.store)
    else state.goto? code target
  | .jump target => state.goto? code target
  | .label _ => some (state.next state.store)

/-- One step of a run. -/
def step? (convention : Convention) (code : List Atom) (state : AtomState) : Option AtomState :=
  code[state.place]?.bind (state.runAtom? convention code)

end AtomState

/-- The run of an atom list from one store falls off the end with another. -/
def Terminates (convention : Convention) (code : List Atom) (start finish : Store) : Prop :=
  Reaches (AtomState.step? convention code) ⟨0, start⟩ ⟨code.length, finish⟩

/-- Behind the last atom there is no step. -/
theorem AtomState.step?_length (convention : Convention) (code : List Atom) (store : Store) :
    step? convention code ⟨code.length, store⟩ = none := by
  simp [step?]

/-- **A run ends in one store.** -/
theorem Terminates.unique {convention : Convention} {code : List Atom}
    {start finish₁ finish₂ : Store} (h₁ : Terminates convention code start finish₁)
    (h₂ : Terminates convention code start finish₂) : finish₁ = finish₂ := by
  have := Reaches.eq_of_stopped h₁ h₂ (AtomState.step?_length _ _ _) (AtomState.step?_length _ _ _)
  exact congrArg AtomState.store this

/-- A run that was followed to its end terminates. -/
theorem exists_terminates_of_stepN {convention : Convention} {code : List Atom} {start : Store}
    {n : Nat} {name : String} {value : Float}
    (h : ((stepN (AtomState.step? convention code) n ⟨0, start⟩).map fun state =>
      (state.place, state.store name)) = some (code.length, value)) :
    ∃ finish, Terminates convention code start finish ∧ finish name = value := by
  obtain ⟨⟨place, store⟩, hrun, heq⟩ := Option.map_eq_some_iff.mp h
  obtain ⟨hplace, hvalue⟩ := Prod.mk.inj heq
  obtain rfl : place = code.length := hplace
  exact ⟨store, ⟨n, hrun⟩, hvalue⟩

end AtomCompiler
