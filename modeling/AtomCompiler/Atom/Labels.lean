import AtomCompiler.Atom.Basic

/-!
# Labels of an atom list

A list is *closed* when no label is defined twice and every jump has a label to
go to.

* `checkLabels_eq_ok_iff` — the check accepts exactly the closed lists.
-/

namespace AtomCompiler

/-- What can be wrong with the labels of an atom list. -/
inductive LabelError where
  | unmatched (label : String)
  | duplicate (label : String)
  deriving DecidableEq, Repr

/-- The wording of a label error. -/
def LabelError.message : LabelError → String
  | unmatched label => s!"Jump target `{label}` has no matching label"
  | duplicate label => s!"Label `{label}` is defined more than once"

/-- The first text of a list that was seen before or stands earlier in the list. -/
def firstRepeat? (seen : List String) : List String → Option String
  | [] => none
  | name :: rest => if name ∈ seen then some name else firstRepeat? (name :: seen) rest

/-- Checks that no label is defined twice and then that every jump has its
label; the first offender in the list is reported. -/
def checkLabels (atoms : List Atom) : Except LabelError Unit :=
  match firstRepeat? [] (labelsOf atoms) with
  | some label => .error (.duplicate label)
  | none =>
    match (jumpTargetsOf atoms).find? fun target => target ∉ labelsOf atoms with
    | some target => .error (.unmatched target)
    | none => .ok ()

/-- No label twice, and a label for every jump. -/
def Closed (atoms : List Atom) : Prop :=
  (labelsOf atoms).Nodup ∧ ∀ target ∈ jumpTargetsOf atoms, target ∈ labelsOf atoms

/-- Nothing repeats exactly if the names are distinct and none was seen before. -/
theorem firstRepeat?_eq_none_iff {seen names : List String} :
    firstRepeat? seen names = none ↔ names.Nodup ∧ ∀ name ∈ names, name ∉ seen := by
  induction names generalizing seen with
  | nil => simp [firstRepeat?]
  | cons name rest ih =>
      by_cases h : name ∈ seen
      · simp [firstRepeat?, h]
      · rw [firstRepeat?, if_neg h, ih]
        simp only [List.nodup_cons, List.mem_cons, not_or, forall_eq_or_imp]
        constructor
        · rintro ⟨hrest, hseen⟩
          exact ⟨⟨fun hmem => (hseen name hmem).1 rfl, hrest⟩, h, fun x hx => (hseen x hx).2⟩
        · rintro ⟨⟨hname, hrest⟩, -, hseen⟩
          exact ⟨hrest, fun x hx => ⟨fun heq => hname (heq ▸ hx), hseen x hx⟩⟩

/-- **The check accepts exactly the closed lists.** -/
theorem checkLabels_eq_ok_iff {atoms : List Atom} :
    checkLabels atoms = .ok () ↔ Closed atoms := by
  have hrepeat : firstRepeat? [] (labelsOf atoms) = none ↔
      (labelsOf atoms).Nodup ∧ ∀ name ∈ labelsOf atoms, name ∉ [] := firstRepeat?_eq_none_iff
  simp only [List.not_mem_nil, not_false_eq_true, implies_true, and_true] at hrepeat
  unfold checkLabels Closed
  rw [← hrepeat]
  cases hdup : firstRepeat? [] (labelsOf atoms) with
  | some label => simp
  | none =>
      cases hfind : (jumpTargetsOf atoms).find? fun target => target ∉ labelsOf atoms with
      | some target =>
          have hmem := List.mem_of_find?_eq_some hfind
          have hnot := List.find?_some hfind
          simp only [decide_eq_true_eq] at hnot
          simp only [reduceCtorEq, true_and, false_iff]
          exact fun hall => hnot (hall target hmem)
      | none =>
          simp only [true_and, true_iff]
          intro target hmem
          have := List.find?_eq_none.mp hfind target hmem
          simpa using this

end AtomCompiler
