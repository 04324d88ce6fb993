import AtomCompiler.Atom.Labels
import AtomCompiler.Optimize.Fold
import AtomCompiler.Proofs.Layout
import AtomCompiler.Proofs.Parsing
import Mathlib.Data.List.Nodup

/-!
# Labels of lowered programs

A generated label can be taken apart again, into what it is for and the place
where it was made.  All labels of a lowered statement were made at places that
the statement takes up, so different parts of a program never share one.

* `LabelBase.label_injective` — no two purposes and no two places share a label;
* `madeBetween_of_mem_labels` — the places that a statement's labels are named for;
* `nodup_labelsOf_lower` — no label of a lowered statement is defined twice;
* `closed_lower` — a lowered statement jumps to its own labels only;
* `compileTokens_labels` — whatever compiles has its labels in order;
* `runsForever_iff` — a closed list never gets stuck: it ends, or it runs
  forever.
-/

namespace AtomCompiler

/-! ## Names -/

/-- A text whose last part holds no underscore is cut in front of that part. -/
theorem splitLastUnderscore?_append {base number : List Char} (h : '_' ∉ number) :
    splitLastUnderscore? (base ++ '_' :: number) = some (base, number) := by
  have hall : ∀ c ∈ number.reverse, (c != '_') = true := by
    intro c hc
    have hne : c ≠ '_' := fun heq => h (heq ▸ List.mem_reverse.mp hc)
    simpa using hne
  have hreverse : (base ++ '_' :: number).reverse = number.reverse ++ '_' :: base.reverse := by
    simp
  have hdrop : (number.reverse ++ '_' :: base.reverse).dropWhile (· != '_') =
      '_' :: base.reverse := by
    rw [List.dropWhile_append_of_pos hall]
    simp
  have htake : (number.reverse ++ '_' :: base.reverse).takeWhile (· != '_') =
      number.reverse := by
    rw [List.takeWhile_append_of_pos hall]
    simp
  rw [splitLastUnderscore?, hreverse, hdrop, htake]
  simp

namespace LabelBase

/-- A generated label is its base, an underscore and the digits of its place. -/
theorem toList_label (base : LabelBase) (place : Nat) :
    (base.label place).toList = base.text.toList ++ '_' :: Nat.toDigits 10 place := by
  simp [label, toString]

/-- A generated label is cut between its purpose and its place. -/
theorem splitLastUnderscore?_label (base : LabelBase) (place : Nat) :
    splitLastUnderscore? (base.label place).toList =
      some (base.text.toList, Nat.toDigits 10 place) := by
  rw [toList_label, splitLastUnderscore?_append Nat.underscore_not_in_toDigits]

/-- The bases are told apart by their texts. -/
theorem text_injective {base₁ base₂ : LabelBase} (h : base₁.text = base₂.text) :
    base₁ = base₂ := by
  cases base₁ <;> cases base₂ <;> first | rfl | simp [text] at h

/-- **No two purposes and no two places share a label.** -/
theorem label_injective {base₁ base₂ : LabelBase} {place₁ place₂ : Nat}
    (h : base₁.label place₁ = base₂.label place₂) : base₁ = base₂ ∧ place₁ = place₂ := by
  have hsplit := splitLastUnderscore?_label base₁ place₁
  rw [h, splitLastUnderscore?_label, Option.some.injEq, Prod.mk.injEq] at hsplit
  obtain ⟨htext, hdigits⟩ := hsplit
  refine ⟨text_injective (String.toList_injective htext.symm), ?_⟩
  have hplace := congrArg (fun digits => Nat.ofDigitChars 10 digits 0) hdigits
  simpa [Nat.ofDigitChars_ten_toDigits] using hplace.symm

end LabelBase

/-- A label that was made at one of the places from `first` up to `last`. -/
def MadeBetween (first last : Nat) (name : String) : Prop :=
  ∃ base : LabelBase, ∃ place, name = base.label place ∧ first ≤ place ∧ place < last

/-- A label that was made in a range was made in any larger one. -/
theorem MadeBetween.mono {first last first' last' : Nat} {name : String}
    (h : MadeBetween first last name) (hfirst : first' ≤ first) (hlast : last ≤ last') :
    MadeBetween first' last' name := by
  obtain ⟨base, place, rfl, hle, hlt⟩ := h
  exact ⟨base, place, rfl, by omega, by omega⟩

/-- A label was not made at places other than its own. -/
theorem not_madeBetween_label {base : LabelBase} {place first last : Nat}
    (h : place < first ∨ last ≤ place) : ¬MadeBetween first last (base.label place) := by
  rintro ⟨other, place', heq, hle, hlt⟩
  obtain ⟨-, rfl⟩ := LabelBase.label_injective heq
  omega

/-! ## Labels of lowered statements -/

/-- The labels of a statement that is placed after `place` atoms, in order. -/
def Statement.labels (place : Nat) : Statement → List String
  | skip => []
  | seq first rest => first.labels place ++ rest.labels (place + first.size)
  | assign _ => []
  | ifThen _ body => body.labels (place + 1) ++ [LabelBase.afterIf.label place]
  | ifElse _ body other =>
    body.labels (place + 1) ++ LabelBase.beforeElse.label (place + body.size + 2) ::
      (other.labels (place + body.size + 3) ++ [LabelBase.afterIf.label place])
  | whileLoop _ body =>
    LabelBase.beforeWhile.label place ::
      (body.labels (place + 2) ++ [LabelBase.afterWhile.label place])
  | forLoop _ _ _ body =>
    LabelBase.beforeFor.label (place + 1) ::
      (body.labels (place + 3) ++ [LabelBase.afterFor.label (place + 1)])

/-- The labels of the atoms of a statement are those that are generated for it. -/
theorem labelsOf_lower (statement : Statement) (place : Nat) :
    labelsOf (statement.lower place) = statement.labels place := by
  induction statement generalizing place with
  | skip => rfl
  | seq first rest ihFirst ihRest => simp [Statement.lower, Statement.labels, ihFirst, ihRest]
  | assign assignment => simp [Statement.lower, Statement.labels]
  | ifThen condition body ih => simp [Statement.lower, Statement.labels, ih]
  | ifElse condition body other ihBody ihOther =>
      simp [Statement.lower, Statement.labels, ihBody, ihOther]
  | whileLoop condition body ih => simp [Statement.lower, Statement.labels, ih]
  | forLoop init condition step body ih => simp [Statement.lower, Statement.labels, ih]

/-- **The labels of a statement were made at places of the statement.** -/
theorem madeBetween_of_mem_labels {statement : Statement} {place : Nat} {name : String}
    (h : name ∈ statement.labels place) : MadeBetween place (place + statement.size) name := by
  induction statement generalizing place with
  | skip => cases h
  | seq first rest ihFirst ihRest =>
      simp only [Statement.size]
      rcases List.mem_append.mp h with h | h
      · exact (ihFirst h).mono (by omega) (by omega)
      · exact (ihRest h).mono (by omega) (by omega)
  | assign assignment => cases h
  | ifThen condition body ih =>
      simp only [Statement.labels, List.mem_append, List.mem_singleton] at h
      simp only [Statement.size]
      rcases h with h | rfl
      · exact (ih h).mono (by omega) (by omega)
      · exact ⟨_, _, rfl, by omega, by omega⟩
  | ifElse condition body other ihBody ihOther =>
      simp only [Statement.labels, List.mem_append, List.mem_cons, List.not_mem_nil, or_false] at h
      simp only [Statement.size]
      rcases h with h | rfl | h | rfl
      · exact (ihBody h).mono (by omega) (by omega)
      · exact ⟨_, _, rfl, by omega, by omega⟩
      · exact (ihOther h).mono (by omega) (by omega)
      · exact ⟨_, _, rfl, by omega, by omega⟩
  | whileLoop condition body ih =>
      simp only [Statement.labels, List.mem_append, List.mem_cons, List.not_mem_nil, or_false] at h
      simp only [Statement.size]
      rcases h with rfl | h | rfl
      · exact ⟨_, _, rfl, by omega, by omega⟩
      · exact (ih h).mono (by omega) (by omega)
      · exact ⟨_, _, rfl, by omega, by omega⟩
  | forLoop init condition step body ih =>
      simp only [Statement.labels, List.mem_append, List.mem_cons, List.not_mem_nil, or_false] at h
      simp only [Statement.size]
      rcases h with rfl | h | rfl
      · exact ⟨_, _, rfl, by omega, by omega⟩
      · exact (ih h).mono (by omega) (by omega)
      · exact ⟨_, _, rfl, by omega, by omega⟩

/-- A label that was made elsewhere is none of a statement's. -/
theorem label_not_mem_labels {statement : Statement} {base : LabelBase} {place first : Nat}
    (h : place < first ∨ first + statement.size ≤ place) :
    base.label place ∉ statement.labels first := by
  intro hmem
  exact not_madeBetween_label h (madeBetween_of_mem_labels hmem)

/-- Statements at different places share no label. -/
theorem labels_disjoint {first second : Statement} {place place' : Nat}
    (h : place + first.size ≤ place') {name : String} (hfirst : name ∈ first.labels place) :
    name ∉ second.labels place' := by
  obtain ⟨base, made, rfl, -, hlt⟩ := madeBetween_of_mem_labels hfirst
  exact label_not_mem_labels (Or.inl (by omega))

/-- One more label that is new leaves the labels distinct. -/
theorem nodup_append_label {names : List String} {name : String} (hnames : names.Nodup)
    (hname : name ∉ names) : (names ++ [name]).Nodup := by
  rw [List.nodup_append]
  refine ⟨hnames, by simp, ?_⟩
  rintro other hother _ hmem rfl
  exact hname (List.mem_singleton.mp hmem ▸ hother)

/-- The two labels of a loop are told apart by their purposes. -/
theorem nodup_loop_labels {names : List String} {before after : LabelBase} {place : Nat}
    (hnames : names.Nodup) (hbefore : before.label place ∉ names)
    (hafter : after.label place ∉ names) (hne : before ≠ after) :
    (before.label place :: (names ++ [after.label place])).Nodup := by
  rw [List.nodup_cons]
  refine ⟨?_, nodup_append_label hnames hafter⟩
  intro hmem
  rcases List.mem_append.mp hmem with hmem | hmem
  · exact hbefore hmem
  · exact hne (LabelBase.label_injective (List.mem_singleton.mp hmem)).1

/-- **No label of a statement is defined twice.** -/
theorem nodup_labels (statement : Statement) (place : Nat) : (statement.labels place).Nodup := by
  induction statement generalizing place with
  | skip => exact List.nodup_nil
  | seq first rest ihFirst ihRest =>
      rw [Statement.labels, List.nodup_append]
      refine ⟨ihFirst place, ihRest _, ?_⟩
      rintro name hfirst _ hrest rfl
      exact labels_disjoint (Nat.le_refl _) hfirst hrest
  | assign assignment => exact List.nodup_nil
  | ifThen condition body ih =>
      exact nodup_append_label (ih _) (label_not_mem_labels (Or.inl (by omega)))
  | ifElse condition body other ihBody ihOther =>
      have hafter : LabelBase.afterIf.label place ∉ other.labels (place + body.size + 3) :=
        label_not_mem_labels (Or.inl (by omega))
      have hother := nodup_append_label (ihOther (place + body.size + 3)) hafter
      rw [Statement.labels, List.nodup_append, List.nodup_cons]
      refine ⟨ihBody _, ⟨?_, hother⟩, ?_⟩
      · intro hmem
        rcases List.mem_append.mp hmem with hmem | hmem
        · exact label_not_mem_labels (Or.inl (by omega)) hmem
        · have heq := LabelBase.label_injective (List.mem_singleton.mp hmem)
          simp at heq
      · rintro name hbody _ hmem rfl
        rcases List.mem_cons.mp hmem with rfl | hmem
        · exact label_not_mem_labels (Or.inr (by omega)) hbody
        · rcases List.mem_append.mp hmem with hmem | hmem
          · exact labels_disjoint (by omega) hbody hmem
          · rw [List.mem_singleton.mp hmem] at hbody
            exact label_not_mem_labels (Or.inl (by omega)) hbody
  | whileLoop condition body ih =>
      exact nodup_loop_labels (ih _) (label_not_mem_labels (Or.inl (by omega)))
        (label_not_mem_labels (Or.inl (by omega))) (by decide)
  | forLoop init condition step body ih =>
      exact nodup_loop_labels (ih _) (label_not_mem_labels (Or.inl (by omega)))
        (label_not_mem_labels (Or.inl (by omega))) (by decide)

/-! ## Jumps of lowered statements -/

@[simp] theorem jumpTargetsOf_nil : jumpTargetsOf [] = [] := rfl

@[simp] theorem jumpTargetsOf_cons (atom : Atom) (atoms : List Atom) :
    jumpTargetsOf (atom :: atoms) = atom.jumpTarget?.toList ++ jumpTargetsOf atoms := by
  cases h : atom.jumpTarget? <;> simp [jumpTargetsOf, h]

@[simp] theorem jumpTargetsOf_append (first second : List Atom) :
    jumpTargetsOf (first ++ second) = jumpTargetsOf first ++ jumpTargetsOf second :=
  List.filterMap_append

/-- Assignments do not jump. -/
@[simp] theorem Assignment.jumpTarget?_lower (assignment : Assignment) :
    assignment.lower.jumpTarget? = none := by
  unfold lower
  split <;> rfl

/-- A condition jumps to the label that it was given. -/
@[simp] theorem Condition.jumpTarget?_lower (condition : Condition) (target : String) :
    (condition.lower target).jumpTarget? = some target := rfl

@[simp] theorem Atom.jumpTarget?_label (name : String) : (Atom.label name).jumpTarget? = none :=
  rfl

@[simp] theorem Atom.jumpTarget?_jump (target : String) :
    (Atom.jump target).jumpTarget? = some target := rfl

/-- **A lowered statement jumps to its own labels only.** -/
theorem mem_labels_of_mem_jumpTargetsOf_lower {statement : Statement} {place : Nat}
    {target : String} (h : target ∈ jumpTargetsOf (statement.lower place)) :
    target ∈ statement.labels place := by
  induction statement generalizing place with
  | skip => simp [Statement.lower] at h
  | seq first rest ihFirst ihRest =>
      rw [Statement.lower, jumpTargetsOf_append] at h
      rcases List.mem_append.mp h with h | h
      · exact List.mem_append_left _ (ihFirst h)
      · exact List.mem_append_right _ (ihRest h)
  | assign assignment => simp [Statement.lower] at h
  | ifThen condition body ih =>
      have h : target = LabelBase.afterIf.label place ∨
          target ∈ jumpTargetsOf (body.lower (place + 1)) := by
        simpa [Statement.lower] using h
      rcases h with rfl | h
      · simp [Statement.labels]
      · simp [Statement.labels, ih h]
  | ifElse condition body other ihBody ihOther =>
      have h : target = LabelBase.beforeElse.label (place + body.size + 2) ∨
          target ∈ jumpTargetsOf (body.lower (place + 1)) ∨
          target = LabelBase.afterIf.label place ∨
          target ∈ jumpTargetsOf (other.lower (place + body.size + 3)) := by
        simpa [Statement.lower] using h
      rcases h with rfl | h | rfl | h
      · simp [Statement.labels]
      · simp [Statement.labels, ihBody h]
      · simp [Statement.labels]
      · simp [Statement.labels, ihOther h]
  | whileLoop condition body ih =>
      have h : target = LabelBase.afterWhile.label place ∨
          target ∈ jumpTargetsOf (body.lower (place + 2)) ∨
          target = LabelBase.beforeWhile.label place := by
        simpa [Statement.lower] using h
      rcases h with rfl | h | rfl
      · simp [Statement.labels]
      · simp [Statement.labels, ih h]
      · simp [Statement.labels]
  | forLoop init condition step body ih =>
      have h : target = LabelBase.afterFor.label (place + 1) ∨
          target ∈ jumpTargetsOf (body.lower (place + 3)) ∨
          target = LabelBase.beforeFor.label (place + 1) := by
        simpa [Statement.lower] using h
      rcases h with rfl | h | rfl
      · simp [Statement.labels]
      · simp [Statement.labels, ih h]
      · simp [Statement.labels]

/-- The labels of the atoms of a statement are distinct. -/
theorem nodup_labelsOf_lower (statement : Statement) (place : Nat) :
    (labelsOf (statement.lower place)).Nodup := by
  rw [labelsOf_lower]
  exact nodup_labels statement place

/-- **A lowered statement is closed.** -/
theorem closed_lower (statement : Statement) (place : Nat) :
    Closed (statement.lower place) := by
  refine ⟨nodup_labelsOf_lower statement place, ?_⟩
  intro target htarget
  rw [labelsOf_lower]
  exact mem_labels_of_mem_jumpTargetsOf_lower htarget

/-! ## Labels of compiled programs -/

/-- A label is defined as often as it is among the labels. -/
theorem count_label (atoms : List Atom) (name : String) :
    atoms.count (.label name) = (labelsOf atoms).count name := by
  induction atoms with
  | nil => rfl
  | cons atom atoms ih =>
      rw [List.count_cons, labelsOf_cons, List.count_append, ih, Nat.add_comm]
      cases atom with
      | label other => simp [List.count_singleton]
      | _ => simp [Atom.label?]

/-- A jump of a closed list has exactly one label to go to. -/
theorem Closed.count_label_eq_one {atoms : List Atom} (h : Closed atoms) {target : String}
    (htarget : target ∈ jumpTargetsOf atoms) : atoms.count (.label target) = 1 := by
  rw [count_label]
  exact List.count_eq_one_of_mem h.1 (h.2 target htarget)

/-- **Generated labels are unique and complete.**  In the atoms of any tokens that
compile, no label is defined twice, and every jump and every test goes to a label that
is defined once; so the labels pass their check. -/
theorem compileTokens_labels {tokens : List (Located Token)} {atoms : List Atom}
    (h : compileTokens tokens = .ok atoms) :
    (labelsOf atoms).Nodup ∧
      (∀ target ∈ jumpTargetsOf atoms, atoms.count (.label target) = 1) ∧
      checkLabels atoms = .ok () := by
  obtain ⟨program, -, rfl⟩ := parse_of_compileTokens h
  have hclosed : Closed program.atoms := closed_lower program 0
  refine ⟨hclosed.1, ?_, checkLabels_eq_ok_iff.mpr hclosed⟩
  intro target htarget
  exact hclosed.count_label_eq_one htarget

/-- A loop around a branch with a loop and a branch in it.  Every name and every number is
spelled like the label of the outer loop. -/
def misspelledLoop : List (Located Token) :=
  ([.keyword .kwWhile, .openParen, .identifier, .less, .integer, .closeParen, .openCurly,
    .keyword .kwIf, .openParen, .identifier, .equal, .integer, .closeParen, .openCurly,
    .keyword .kwFor, .openParen, .identifier, .assign, .integer, .semicolon, .identifier, .greater,
    .integer, .semicolon, .identifier, .decrement, .closeParen, .openCurly, .closeCurly,
    .closeCurly, .keyword .kwElse, .keyword .kwIf, .openParen, .integer, .notEqual, .identifier,
    .closeParen, .openCurly, .closeCurly, .keyword .kwElse, .openCurly, .identifier, .increment,
    .semicolon, .closeCurly, .closeCurly] : List TokenKind).map
      fun kind => ⟨⟨kind, LabelBase.beforeWhile.label 0⟩, .start⟩

/-- Lexemes that are spelled like labels do not get in the way of the labels. -/
theorem compileTokens_labels_misspelledLoop :
    ∃ atoms, compileTokens misspelledLoop = .ok atoms ∧
      labelsOf atoms = ["before_while_0", "before_for_4", "after_for_4", "before_else_10",
        "before_else_13", "after_if_11", "after_if_2", "after_while_0"] ∧
      (labelsOf atoms).Nodup ∧
      (∀ target ∈ jumpTargetsOf atoms, atoms.count (.label target) = 1) ∧
      checkLabels atoms = .ok () := by
  have hatoms : (compileTokens misspelledLoop).toOption.map labelsOf =
      some ["before_while_0", "before_for_4", "after_for_4", "before_else_10", "before_else_13",
        "after_if_11", "after_if_2", "after_while_0"] := by
    decide +kernel
  obtain ⟨atoms, hatoms, hlabels⟩ := Option.map_eq_some_iff.mp hatoms
  have hatoms := eq_ok_of_toOption hatoms
  exact ⟨atoms, hatoms, hlabels, compileTokens_labels hatoms⟩

/-! ## Runs of closed lists -/

section Closed

variable {convention : Convention} {code : List Atom}

/-- A jump of a closed list has a label to go to. -/
theorem Closed.goto?_isSome (hclosed : Closed code) {atom : Atom} (hmem : atom ∈ code)
    {target : String} (htarget : atom.jumpTarget? = some target) (state : AtomState) :
    (state.goto? code target).isSome := by
  have hlabel : target ∈ labelsOf code :=
    hclosed.2 target (List.mem_filterMap.mpr ⟨atom, hmem, htarget⟩)
  have hfound : (labelPlace? code target).isSome := by
    rw [labelPlace?, List.findIdx?_isSome, List.any_eq_true]
    exact ⟨.label target, mem_labelsOf.mp hlabel, by simp⟩
  simpa [AtomState.goto?] using hfound

/-- A closed list is stuck nowhere but at its end. -/
theorem Closed.step?_isSome (hclosed : Closed code) {state : AtomState}
    (hplace : state.place < code.length) : (AtomState.step? convention code state).isSome := by
  have hatom : code[state.place]? = some code[state.place] := List.getElem?_eq_getElem hplace
  have hmem : code[state.place] ∈ code := List.getElem_mem hplace
  generalize code[state.place] = atom at hatom hmem
  rw [AtomState.step?, hatom]
  cases atom with
  | test left right comparison target =>
      simp only [Option.bind_some, AtomState.runAtom?]
      split
      · rfl
      · exact hclosed.goto?_isSome hmem rfl state
  | jump target => exact hclosed.goto?_isSome hmem rfl state
  | _ => rfl

/-- **A closed list runs forever exactly when it ends in no store.** -/
theorem Closed.runsForever_iff (hclosed : Closed code) {start : Store} :
    RunsForever (AtomState.step? convention code) ⟨0, start⟩ ↔
      ¬∃ finish, Terminates convention code start finish := by
  constructor
  · rintro hforever ⟨finish, hreach⟩
    exact Reaches.not_runsForever hreach (AtomState.step?_length _ _ _) hforever
  · intro hnone
    rcases stops_or_runsForever (AtomState.step? convention code) ⟨0, start⟩ with
      ⟨⟨place, finish⟩, hreach, hstop⟩ | hforever
    · have hle : place ≤ code.length := place_le_of_reaches (Nat.zero_le _) hreach
      have hnot : ¬place < code.length := by
        intro hlt
        have hsome : (AtomState.step? convention code ⟨place, finish⟩).isSome :=
          hclosed.step?_isSome hlt
        simp [hstop] at hsome
      obtain rfl : place = code.length := by omega
      exact (hnone ⟨finish, hreach⟩).elim
    · exact hforever

end Closed

end AtomCompiler
