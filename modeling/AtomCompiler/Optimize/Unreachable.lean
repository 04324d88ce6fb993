import AtomCompiler.Atom.Basic

/-!
# Atoms that control cannot reach

Control never falls past a jump, so what stands between a jump and the next
label cannot be reached.  The pass keeps everything else.
-/

namespace AtomCompiler

/-- Whether control falls through to the atom after this one. -/
def Atom.fallsThrough : Atom → Bool
  | jump _ => false
  | _ => true

/-- Drops atoms up to the next label while control cannot fall into them. -/
def keepReachable (reachable : Bool) : List Atom → List Atom
  | [] => []
  | atom :: rest =>
    if reachable || atom.label?.isSome then atom :: keepReachable atom.fallsThrough rest
    else keepReachable false rest

/-- The list without the atoms between a jump and the next label. -/
def removeUnreachable (atoms : List Atom) : List Atom :=
  keepReachable true atoms

/-- Nothing is added or moved. -/
theorem keepReachable_sublist (reachable : Bool) (atoms : List Atom) :
    (keepReachable reachable atoms).Sublist atoms := by
  induction atoms generalizing reachable with
  | nil => exact List.Sublist.refl []
  | cons atom rest ih =>
      rw [keepReachable]
      split
      · exact (ih _).cons_cons atom
      · exact (ih _).cons atom

/-- Every label is kept. -/
theorem labelsOf_keepReachable (reachable : Bool) (atoms : List Atom) :
    labelsOf (keepReachable reachable atoms) = labelsOf atoms := by
  induction atoms generalizing reachable with
  | nil => rfl
  | cons atom rest ih =>
      rw [keepReachable]
      split
      · next h =>
          simp only [labelsOf, List.filterMap_cons] at ih ⊢
          rw [ih]
      · next h =>
          have hlabel : atom.label? = none := by
            cases hname : atom.label? with
            | none => rfl
            | some name => simp [hname] at h
          simp only [labelsOf, List.filterMap_cons, hlabel] at ih ⊢
          exact ih false

end AtomCompiler
