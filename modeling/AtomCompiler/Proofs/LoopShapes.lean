import AtomCompiler.Proofs.Branches
import AtomCompiler.Proofs.Optimizing

/-!
# The shape of loops

The walk that folds branches knows a loop by the name of the label in front of it and by
the test right behind that label.  Where a list has other loops, or where something jumps
into a branch from outside, it has two rules to fall back on: it forgets what an irregular
loop assigns, and it keeps a branch that is entered from elsewhere.

In the atoms of a program every label, test and jump stands as the walk expects it.

* `Statement.loopLabels` — the labels in front of the loops of a program;
* `Everywhere` — a property of every atom of a list and of what stands around it;
* `sealed_iff` — the branches that nothing else jumps into;
* `everywhere_regularAt_lower` — the labels and tests of a program stand as expected;
* `everywhere_backOrAheadAt_lower` — its jumps go back to the head of their loop or ahead.
-/

namespace AtomCompiler

variable {name target : String} {walked after rest atoms : List Atom}

/-! ## Labels in front of loops -/

/-- A label that is named as the head of a loop. -/
def NamesLoop (name : String) : Prop :=
  ∃ target, isLoopPair name target = true

theorem not_namesLoop_iff : ¬NamesLoop name ↔ ∀ target, isLoopPair name target = false := by
  simp [NamesLoop]

/-- The head of a loop is named as one. -/
theorem namesLoop_of_isLoopHead (h : isLoopHead name rest = true) : NamesLoop name := by
  unfold isLoopHead at h
  split at h
  · exact ⟨_, h⟩
  · cases h

/-- Of the generated labels only those in front of loops are named as such. -/
theorem namesLoop_label_iff {base : LabelBase} {place : Nat} :
    NamesLoop (base.label place) ↔ base = .beforeWhile ∨ base = .beforeFor := by
  constructor
  · rintro ⟨target, hpair⟩
    by_cases hwhile : base = .beforeWhile
    · exact Or.inl hwhile
    · by_cases hfor : base = .beforeFor
      · exact Or.inr hfor
      · rw [isLoopPair_label place hwhile hfor] at hpair
        cases hpair
  · intro h
    exact ⟨LabelBase.afterWhile.label place, isLoopPair_loop place h⟩

/-- The labels in front of the loops of a statement that is placed after `place` atoms. -/
def Statement.loopLabels (place : Nat) : Statement → List String
  | skip => []
  | seq first rest => first.loopLabels place ++ rest.loopLabels (place + first.size)
  | assign _ => []
  | ifThen _ body => body.loopLabels (place + 1)
  | ifElse _ body other =>
    body.loopLabels (place + 1) ++ other.loopLabels (place + body.size + 3)
  | whileLoop _ body => LabelBase.beforeWhile.label place :: body.loopLabels (place + 2)
  | forLoop _ _ _ body => LabelBase.beforeFor.label (place + 1) :: body.loopLabels (place + 3)

/-- **The labels in front of loops are those that are named as such.** -/
theorem mem_loopLabels_iff {statement : Statement} {place : Nat} :
    name ∈ statement.loopLabels place ↔ name ∈ statement.labels place ∧ NamesLoop name := by
  have hother : ∀ (base : LabelBase) (place : Nat), base ≠ .beforeWhile → base ≠ .beforeFor →
      name = base.label place → ¬NamesLoop name := by
    rintro base place hwhile hfor rfl h
    rcases namesLoop_label_iff.mp h with h | h
    · exact hwhile h
    · exact hfor h
  have hloop : ∀ (base : LabelBase) (place : Nat), base = .beforeWhile ∨ base = .beforeFor →
      name = base.label place → NamesLoop name := by
    rintro base place h rfl
    exact namesLoop_label_iff.mpr h
  induction statement generalizing place with
  | skip => simp [Statement.loopLabels, Statement.labels]
  | seq first rest ihFirst ihRest =>
      simp [Statement.loopLabels, Statement.labels, ihFirst, ihRest, or_and_right]
  | assign assignment => simp [Statement.loopLabels, Statement.labels]
  | ifThen condition body ih =>
      have hafter := hother .afterIf place (by decide) (by decide)
      simp only [Statement.loopLabels, Statement.labels, ih, List.mem_append, List.mem_singleton]
      tauto
  | ifElse condition body other ihBody ihOther =>
      have hafter := hother .afterIf place (by decide) (by decide)
      have helse := hother .beforeElse (place + body.size + 2) (by decide) (by decide)
      simp only [Statement.loopLabels, Statement.labels, ihBody, ihOther, List.mem_append,
        List.mem_cons, List.not_mem_nil]
      tauto
  | whileLoop condition body ih =>
      have hbefore := hloop .beforeWhile place (Or.inl rfl)
      have hafter := hother .afterWhile place (by decide) (by decide)
      simp only [Statement.loopLabels, Statement.labels, ih, List.mem_append, List.mem_cons,
        List.not_mem_nil]
      tauto
  | forLoop init condition step body ih =>
      have hbefore := hloop .beforeFor (place + 1) (Or.inr rfl)
      have hafter := hother .afterFor (place + 1) (by decide) (by decide)
      simp only [Statement.loopLabels, Statement.labels, ih, List.mem_append, List.mem_cons,
        List.not_mem_nil]
      tauto

/-! ## Atoms and what stands around them -/

/-- Every atom of a part of a list has a property that depends on what stands around it:
the atoms before it, last first, and those behind it. -/
def Everywhere (property : List Atom → Atom → List Atom → Prop) (walked after : List Atom) :
    List Atom → Prop
  | [] => True
  | atom :: rest =>
    property walked atom (rest ++ after) ∧ Everywhere property (atom :: walked) after rest

section Everywhere

variable {property : List Atom → Atom → List Atom → Prop}

/-- A property holds everywhere in two parts if it holds in each of them, with the other one
around it. -/
theorem everywhere_append {first second : List Atom} :
    Everywhere property walked after (first ++ second) ↔
      Everywhere property walked (second ++ after) first ∧
        Everywhere property (first.reverse ++ walked) after second := by
  induction first generalizing walked with
  | nil => simp [Everywhere]
  | cons atom first ih => simp [Everywhere, ih, and_assoc]

/-- What holds everywhere holds of every atom, with the atoms before and behind it. -/
theorem everywhere_iff {part : List Atom} :
    Everywhere property walked after part ↔ ∀ front atom rest, part = front ++ atom :: rest →
      property (front.reverse ++ walked) atom (rest ++ after) := by
  induction part generalizing walked with
  | nil => simp [Everywhere]
  | cons first part ih =>
      rw [Everywhere, ih]
      constructor
      · rintro ⟨hfirst, hpart⟩ front atom rest heq
        cases front with
        | nil =>
            obtain ⟨rfl, rfl⟩ := List.cons.inj heq
            exact hfirst
        | cons _ front =>
            obtain ⟨rfl, rfl⟩ := List.cons.inj heq
            simpa using hpart front atom rest rfl
      · intro h
        refine ⟨h [] first part rfl, fun front atom rest heq => ?_⟩
        simpa using h (first :: front) atom rest (by rw [heq]; rfl)

end Everywhere

/-! ## Branches that nothing else jumps into -/

section Branches

variable {left right : String} {comparison : Comparison} {branch : Branch}

/-- The labels of a branch: the head of its loop if it has one, those between the test
and its label, and that label. -/
theorem Branch.mem_labelsOf_region :
    name ∈ labelsOf branch.region ↔
      branch.head = some name ∨ name ∈ labelsOf branch.body ∨ name = branch.target := by
  cases hhead : branch.head with
  | none => simp [region, test, hhead, Atom.label?]
  | some head => simp [region, test, hhead, Atom.label?, eq_comm]

/-- A branch has a head exactly if the label right before its test makes a loop of it. -/
theorem Branch.head_eq_some_iff
    (h : Branch.of? walked left right comparison target rest = some branch) :
    branch.head = some name ↔
      ∃ earlier, walked = .label name :: earlier ∧ isLoopPair name target = true := by
  obtain ⟨_, earlier, _, _, rfl, -, ⟨rfl, rfl, hnot⟩ | ⟨head, rfl, rfl, hpair⟩⟩ :=
    Branch.of?_cases h
  · constructor
    · intro hsome
      cases hsome
    · rintro ⟨front, heq, hpair⟩
      rw [hnot name front heq] at hpair
      cases hpair
  · constructor
    · intro hsome
      obtain rfl := Option.some.inj hsome
      exact ⟨earlier, rfl, hpair⟩
    · rintro ⟨front, heq, -⟩
      exact congrArg some (Atom.label.inj (List.cons.inj heq).1)

/-- The head of a loop jumps nowhere. -/
theorem Branch.jumpTargetsOf_earlier
    (h : Branch.of? walked left right comparison target rest = some branch) :
    jumpTargetsOf branch.earlier = jumpTargetsOf walked := by
  obtain ⟨_, earlier, _, _, rfl, -, ⟨-, rfl, -⟩ | ⟨head, -, rfl, -⟩⟩ := Branch.of?_cases h
  · rfl
  · rfl

/-- A branch that is closed to jumps from outside: its label stands ahead, and nothing
before the test or behind its label jumps to that label, to one in between, or to the
head of the loop if the test is that of a loop. -/
def Sealed (walked : List Atom) (target : String) (rest : List Atom) : Prop :=
  ∃ body after, splitAtLabel? target rest = some (body, after) ∧
    ∀ jump ∈ jumpTargetsOf (walked ++ after), jump ∉ labelsOf body ∧ jump ≠ target ∧
      ∀ earlier, walked = .label jump :: earlier → isLoopPair jump target = false

/-- No jump from elsewhere enters a branch: none leads to a label of its body, to the label at its
end, or to its head. -/
theorem Branch.isEnteredElsewhere_eq_false_iff
    (h : Branch.of? walked left right comparison target rest = some branch) :
    branch.isEnteredElsewhere = false ↔ ∀ jump ∈ jumpTargetsOf (walked ++ branch.after),
      jump ∉ labelsOf branch.body ∧ jump ≠ target ∧
        ∀ earlier, walked = .label jump :: earlier → isLoopPair jump target = false := by
  have htarget : branch.target = target := by
    obtain ⟨_, _, _, _, rfl, -, -⟩ := Branch.of?_cases h
    rfl
  rw [isEnteredElsewhere, entersFrom_eq_false, jumpTargetsOf_append,
    Branch.jumpTargetsOf_earlier h, ← jumpTargetsOf_append]
  simp only [Branch.mem_labelsOf_region, Branch.head_eq_some_iff h, htarget, not_or,
    not_exists, not_and, Bool.not_eq_true]
  refine forall₂_congr fun jump _ => ?_
  tauto

/-- **A branch is closed to jumps from outside** exactly if the walk finds that nothing
else jumps into it. -/
theorem sealed_iff :
    Sealed walked target rest ↔ ∃ branch,
      Branch.of? walked left right comparison target rest = some branch ∧
        branch.isEnteredElsewhere = false := by
  constructor
  · rintro ⟨body, after, hsplit, hout⟩
    obtain ⟨branch, hbranch⟩ :
        ∃ branch, Branch.of? walked left right comparison target rest = some branch := by
      simp [Branch.of?, hsplit]
    refine ⟨branch, hbranch, (Branch.isEnteredElsewhere_eq_false_iff hbranch).mpr ?_⟩
    obtain ⟨_, _, _, _, rfl, hsplit', -⟩ := Branch.of?_cases hbranch
    obtain ⟨rfl, rfl⟩ := Prod.mk.inj (Option.some.inj (hsplit.symm.trans hsplit'))
    exact hout
  · rintro ⟨branch, hbranch, hnot⟩
    have hout := (Branch.isEnteredElsewhere_eq_false_iff hbranch).mp hnot
    obtain ⟨_, _, body, after, rfl, hsplit, -⟩ := Branch.of?_cases hbranch
    exact ⟨body, after, hsplit, hout⟩

end Branches

/-- An atom that stands as the walk expects it.  A label is the head of a loop, or it is
not named like one and nothing behind it goes back to it.  The label of a test stands
ahead, and nothing else jumps into the branch. -/
def RegularAt (walked : List Atom) (atom : Atom) (rest : List Atom) : Prop :=
  match atom with
  | .label name =>
    isLoopHead name rest = true ∨ (¬NamesLoop name ∧ name ∉ jumpTargetsOf rest)
  | .test _ _ _ target => Sealed walked target rest
  | _ => True

/-- A jump goes back to the head of a loop, and then it stands right before the label that
the test of the loop jumps to; or it goes to a label ahead, which is no head of a loop. -/
def BackOrAheadAt (walked : List Atom) (atom : Atom) (rest : List Atom) : Prop :=
  match atom with
  | .jump target =>
    (NamesLoop target ∧ ∃ inner left right comparison exit earlier after,
      walked = inner ++ .test left right comparison exit :: .label target :: earlier ∧
        rest = .label exit :: after) ∨
    (¬NamesLoop target ∧ target ∈ labelsOf rest)
  | _ => True

/-- Nothing is asked of an assignment. -/
theorem regularAt_assignment (assignment : Assignment) :
    RegularAt walked assignment.lower rest := by
  unfold Assignment.lower
  split <;> trivial

/-- An assignment does not jump. -/
theorem backOrAheadAt_assignment (assignment : Assignment) :
    BackOrAheadAt walked assignment.lower rest := by
  unfold Assignment.lower
  split <;> trivial

/-- A label behind which no loop begins. -/
theorem regularAt_label {base : LabelBase} {place : Nat} (hwhile : base ≠ .beforeWhile)
    (hfor : base ≠ .beforeFor) (h : base.label place ∉ jumpTargetsOf rest) :
    RegularAt walked (.label (base.label place)) rest := by
  refine Or.inr ⟨?_, h⟩
  rw [not_namesLoop_iff]
  exact isLoopPair_label place hwhile hfor

/-! ## Programs -/

/-- No jump of a list goes to a label that was made at one of the places from `first` up
to `last`. -/
def JumpsElsewhere (first last : Nat) (atoms : List Atom) : Prop :=
  ∀ target ∈ jumpTargetsOf atoms, ¬MadeBetween first last target

section JumpsElsewhere

variable {first last : Nat}

/-- Jumps that keep out of a range keep out of a smaller one. -/
theorem JumpsElsewhere.mono {first' last' : Nat} (h : JumpsElsewhere first last atoms)
    (hfirst : first ≤ first') (hlast : last' ≤ last) : JumpsElsewhere first' last' atoms :=
  fun target htarget hmade => h target htarget (hmade.mono hfirst hlast)

/-- The jumps of two parts keep out of a range if those of each part do. -/
theorem jumpsElsewhere_append {before after : List Atom} :
    JumpsElsewhere first last (before ++ after) ↔
      JumpsElsewhere first last before ∧ JumpsElsewhere first last after := by
  simp only [JumpsElsewhere, jumpTargetsOf_append, List.mem_append, or_imp, forall_and]

/-- An atom in front that jumps nowhere changes nothing. -/
theorem JumpsElsewhere.cons {atom : Atom} (h : JumpsElsewhere first last atoms)
    (hatom : atom.jumpTarget? = none) : JumpsElsewhere first last (atom :: atoms) := by
  simpa [JumpsElsewhere, hatom] using h

/-- Nor does one that jumps to a label of another place. -/
theorem JumpsElsewhere.cons_jump {atom : Atom} {base : LabelBase} {place : Nat}
    (h : JumpsElsewhere first last atoms) (hatom : atom.jumpTarget? = some (base.label place))
    (hplace : place < first ∨ last ≤ place) : JumpsElsewhere first last (atom :: atoms) := by
  intro target htarget
  rw [jumpTargetsOf_cons, hatom, Option.toList_some, List.singleton_append] at htarget
  rcases List.mem_cons.mp htarget with rfl | htarget
  · exact not_madeBetween_label hplace
  · exact h target htarget

theorem jumpsElsewhere_reverse :
    JumpsElsewhere first last atoms.reverse ↔ JumpsElsewhere first last atoms := by
  simp [JumpsElsewhere, jumpTargetsOf]

/-- A statement jumps to none of the labels of another place. -/
theorem jumpsElsewhere_lower {statement : Statement} {place : Nat}
    (h : last ≤ place ∨ place + statement.size ≤ first) :
    JumpsElsewhere first last (statement.lower place) := by
  intro target htarget
  obtain ⟨base, made, rfl, hle, hlt⟩ :=
    madeBetween_of_mem_labels (mem_labels_of_mem_jumpTargetsOf_lower htarget)
  exact not_madeBetween_label (by omega)

end JumpsElsewhere

/-- A branch is closed to jumps from outside if all its labels were made at places that
nothing outside jumps to. -/
theorem sealed_of_jumpsElsewhere (first last : Nat) {body : List Atom}
    (hbody : ∀ name ∈ labelsOf body, MadeBetween first last name)
    (htarget : MadeBetween first last target) (hfresh : target ∉ labelsOf body)
    (hhead : ∀ name earlier, walked = .label name :: earlier → isLoopPair name target = true →
      MadeBetween first last name)
    (hwalked : JumpsElsewhere first last walked) (hafter : JumpsElsewhere first last after) :
    Sealed walked target (body ++ .label target :: after) := by
  refine ⟨body, after, splitAtLabel?_append hfresh, fun jump hjump => ?_⟩
  have hnot : ¬MadeBetween first last jump :=
    jumpsElsewhere_append.mpr ⟨hwalked, hafter⟩ jump hjump
  refine ⟨fun hmem => hnot (hbody jump hmem), fun heq => hnot (heq ▸ htarget), ?_⟩
  intro earlier heq
  exact Bool.eq_false_iff.mpr fun hpair => hnot (hhead jump earlier heq hpair)

/-- Where the walk has settled, the label right before a test does not make a loop of it. -/
theorem Settled.not_isLoopPair {earlier : List Atom} (h : Settled walked)
    (heq : walked = .label name :: earlier) : ¬isLoopPair name target = true := by
  rw [h name earlier heq]
  exact Bool.false_ne_true

/-- No statement ends with the head of a loop. -/
theorem settled_lower (statement : Statement) (place : Nat) (h : Settled walked) :
    Settled ((statement.lower place).reverse ++ walked) := by
  induction statement generalizing place walked with
  | skip => exact h
  | seq first rest ihFirst ihRest =>
      simpa [Statement.lower] using ihRest (place + first.size) (ihFirst place h)
  | assign assignment => exact settled_assignment assignment walked
  | ifThen condition body =>
      simpa [Statement.lower] using settled_label (isLoopPair_label place (by decide) (by decide)) _
  | ifElse condition body other =>
      simpa [Statement.lower] using settled_label (isLoopPair_label place (by decide) (by decide)) _
  | whileLoop condition body =>
      simpa [Statement.lower] using settled_label (isLoopPair_label place (by decide) (by decide)) _
  | forLoop init condition step body =>
      simpa [Statement.lower] using
        settled_label (isLoopPair_label (place + 1) (by decide) (by decide)) _

/-- The labels of a statement were made at places of the statement. -/
theorem madeBetween_of_mem_labelsOf_lower {statement : Statement} {place : Nat}
    (h : name ∈ labelsOf (statement.lower place)) :
    MadeBetween place (place + statement.size) name := by
  rw [labelsOf_lower] at h
  exact madeBetween_of_mem_labels h

section Branch

variable {condition : Condition} {body : List Atom} {head exit : LabelBase} {place : Nat}

/-- A test with its branch is regular if its body is, and if all labels of the branch were
made at places that nothing outside jumps to. -/
theorem everywhere_regularAt_branch (first last : Nat)
    (hexit : exit ≠ .beforeWhile ∧ exit ≠ .beforeFor) (hplace : first ≤ place ∧ place < last)
    (hlabels : ∀ name ∈ labelsOf body, MadeBetween first last name)
    (hfresh : exit.label place ∉ labelsOf body)
    (hhead : ∀ name earlier, walked = .label name :: earlier →
      isLoopPair name (exit.label place) = true → MadeBetween first last name)
    (hwalked : JumpsElsewhere first last walked) (hafter : JumpsElsewhere first last after)
    (hbody : Everywhere RegularAt (condition.lower (exit.label place) :: walked)
      (.label (exit.label place) :: after) body) :
    Everywhere RegularAt walked after
      (condition.lower (exit.label place) :: (body ++ [.label (exit.label place)])) := by
  have hmade : MadeBetween first last (exit.label place) :=
    ⟨exit, place, rfl, hplace.1, hplace.2⟩
  have hsealed : Sealed walked (exit.label place) (body ++ .label (exit.label place) :: after) :=
    sealed_of_jumpsElsewhere first last hlabels hmade hfresh hhead hwalked hafter
  have hlast : RegularAt (body.reverse ++ condition.lower (exit.label place) :: walked)
      (.label (exit.label place)) after :=
    regularAt_label hexit.1 hexit.2 fun hmem => hafter _ hmem hmade
  rw [Everywhere, everywhere_append]
  refine ⟨?_, hbody, hlast, trivial⟩
  simpa [Condition.lower, RegularAt] using hsealed

/-- A loop is regular if its body is, and nothing outside jumps to a label that was made in
its place. -/
theorem everywhere_regularAt_loop (last : Nat) (hhead : head = .beforeWhile ∨ head = .beforeFor)
    (hexit : exit ≠ .beforeWhile ∧ exit ≠ .beforeFor) (hlt : place < last)
    (hlabels : ∀ name ∈ labelsOf body, MadeBetween (place + 1) last name)
    (hwalked : JumpsElsewhere place last walked) (hafter : JumpsElsewhere place last after)
    (hbody : Everywhere RegularAt
      (condition.lower (exit.label place) :: .label (head.label place) :: walked)
      (.jump (head.label place) :: .label (exit.label place) :: after) body) :
    Everywhere RegularAt walked after
      (loopAtoms condition body (head.label place) (exit.label place)) := by
  have hround : labelsOf (body ++ [.jump (head.label place)]) = labelsOf body := by
    simp [Atom.label?]
  have hbranch : Everywhere RegularAt (.label (head.label place) :: walked) after
      (condition.lower (exit.label place) ::
        ((body ++ [.jump (head.label place)]) ++ [.label (exit.label place)])) := by
    apply everywhere_regularAt_branch place last hexit ⟨Nat.le_refl place, hlt⟩
    · intro name hname
      rw [hround] at hname
      exact (hlabels name hname).mono (Nat.le_succ place) (Nat.le_refl last)
    · intro hmem
      rw [hround] at hmem
      exact not_madeBetween_label (Or.inl (Nat.lt_succ_self place)) (hlabels _ hmem)
    · rintro name earlier heq -
      obtain rfl := Atom.label.inj (List.cons.inj heq).1
      exact ⟨head, place, rfl, Nat.le_refl place, hlt⟩
    · exact hwalked.cons rfl
    · exact hafter
    · rw [everywhere_append]
      exact ⟨hbody, trivial, trivial⟩
  rw [loopAtoms, Everywhere]
  refine ⟨Or.inl (isLoopPair_loop place hhead), ?_⟩
  simpa using hbranch

/-- Two branches are regular if both their bodies are, and nothing outside jumps to a label
that was made in their place.  The label that the test jumps to is made behind the first
body, and the one behind both is made first. -/
theorem everywhere_regularAt_ifElse {other : List Atom} {elsePlace : Nat} (last : Nat)
    (hplace : place < elsePlace ∧ elsePlace < last)
    (hlabels : ∀ name ∈ labelsOf body, MadeBetween (place + 1) elsePlace name)
    (hjumps : JumpsElsewhere (place + 1) (elsePlace + 1) other) (hsettled : Settled walked)
    (hwalked : JumpsElsewhere place last walked) (hafter : JumpsElsewhere place last after)
    (hbody : Everywhere RegularAt
      (condition.lower (LabelBase.beforeElse.label elsePlace) :: walked)
      (.jump (LabelBase.afterIf.label place) :: .label (LabelBase.beforeElse.label elsePlace) ::
        (other ++ .label (LabelBase.afterIf.label place) :: after)) body)
    (hother : Everywhere RegularAt
      (.label (LabelBase.beforeElse.label elsePlace) :: .jump (LabelBase.afterIf.label place) ::
        (body.reverse ++ condition.lower (LabelBase.beforeElse.label elsePlace) :: walked))
      (.label (LabelBase.afterIf.label place) :: after) other) :
    Everywhere RegularAt walked after
      (condition.lower (LabelBase.beforeElse.label elsePlace) :: body ++
        .jump (LabelBase.afterIf.label place) :: .label (LabelBase.beforeElse.label elsePlace) ::
          other ++ [.label (LabelBase.afterIf.label place)]) := by
  have hround : labelsOf (body ++ [.jump (LabelBase.afterIf.label place)]) = labelsOf body := by
    simp [Atom.label?]
  have hbranch : Everywhere RegularAt walked
      (other ++ .label (LabelBase.afterIf.label place) :: after)
      (condition.lower (LabelBase.beforeElse.label elsePlace) ::
        ((body ++ [.jump (LabelBase.afterIf.label place)]) ++
          [.label (LabelBase.beforeElse.label elsePlace)])) := by
    apply everywhere_regularAt_branch (place + 1) (elsePlace + 1) (by decide) (by omega)
    · intro name hname
      rw [hround] at hname
      exact (hlabels name hname).mono (Nat.le_refl _) (Nat.le_succ elsePlace)
    · intro hmem
      rw [hround] at hmem
      exact not_madeBetween_label (Or.inr (Nat.le_refl elsePlace)) (hlabels _ hmem)
    · intro name earlier heq hpair
      exact (hsettled.not_isLoopPair heq hpair).elim
    · exact hwalked.mono (by omega) (by omega)
    · exact jumpsElsewhere_append.mpr ⟨hjumps, (hafter.mono (by omega) (by omega)).cons rfl⟩
    · exact everywhere_append.mpr ⟨hbody, trivial, trivial⟩
  have hend : LabelBase.afterIf.label place ∉ jumpTargetsOf after :=
    fun hmem => hafter _ hmem ⟨.afterIf, place, rfl, by omega, by omega⟩
  have hatoms : condition.lower (LabelBase.beforeElse.label elsePlace) :: body ++
        .jump (LabelBase.afterIf.label place) :: .label (LabelBase.beforeElse.label elsePlace) ::
          other ++ [.label (LabelBase.afterIf.label place)] =
      (condition.lower (LabelBase.beforeElse.label elsePlace) ::
        ((body ++ [.jump (LabelBase.afterIf.label place)]) ++
          [.label (LabelBase.beforeElse.label elsePlace)])) ++
        (other ++ [.label (LabelBase.afterIf.label place)]) := by
    simp
  rw [hatoms, everywhere_append, everywhere_append]
  exact ⟨by simpa using hbranch, by simpa using hother,
    regularAt_label (by decide) (by decide) hend, trivial⟩

end Branch

/-- **Every atom of a statement is regular** where no jump from outside goes to a label
that was made at one of its places. -/
theorem everywhere_regularAt_lower (statement : Statement) (place : Nat)
    (hsettled : Settled walked)
    (hwalked : JumpsElsewhere place (place + statement.size) walked)
    (hafter : JumpsElsewhere place (place + statement.size) after) :
    Everywhere RegularAt walked after (statement.lower place) := by
  -- over the statement, with everything around it free: what stands before and behind a part
  -- includes the rest of the statement, whose labels were made at other places
  induction statement generalizing place walked after with
  | skip => trivial
  | seq first rest ihFirst ihRest =>
      simp only [Statement.size] at hwalked hafter
      rw [Statement.lower, everywhere_append]
      constructor
      · apply ihFirst place hsettled (hwalked.mono (by omega) (by omega))
        rw [jumpsElsewhere_append]
        exact ⟨jumpsElsewhere_lower (Or.inl (by omega)), hafter.mono (by omega) (by omega)⟩
      · refine ihRest _ (settled_lower first place hsettled) ?_ (hafter.mono (by omega) (by omega))
        rw [jumpsElsewhere_append, jumpsElsewhere_reverse]
        exact ⟨jumpsElsewhere_lower (Or.inr (by omega)), hwalked.mono (by omega) (by omega)⟩
  | assign assignment => exact ⟨regularAt_assignment assignment, trivial⟩
  | ifThen condition body ih =>
      simp only [Statement.size] at hwalked hafter
      have hbody : Everywhere RegularAt (condition.lower (LabelBase.afterIf.label place) :: walked)
          (.label (LabelBase.afterIf.label place) :: after) (body.lower (place + 1)) :=
        ih (place + 1) (settled_test condition _ walked)
          ((hwalked.mono (by omega) (by omega)).cons_jump rfl (Or.inl (by omega)))
          ((hafter.mono (by omega) (by omega)).cons rfl)
      refine everywhere_regularAt_branch place (place + (body.size + 2)) (by decide) (by omega)
        ?_ ?_ ?_ hwalked hafter hbody
      · intro name hname
        exact (madeBetween_of_mem_labelsOf_lower hname).mono (by omega) (by omega)
      · rw [labelsOf_lower]
        exact label_not_mem_labels (Or.inl (by omega))
      · intro name earlier heq hpair
        exact (hsettled.not_isLoopPair heq hpair).elim
  | ifElse condition body other ihBody ihOther =>
      simp only [Statement.size] at hwalked hafter
      refine everywhere_regularAt_ifElse (place + (body.size + other.size + 4)) (by omega) ?_ ?_
        hsettled hwalked hafter ?_ ?_
      · intro name hname
        exact (madeBetween_of_mem_labelsOf_lower hname).mono (by omega) (by omega)
      · exact jumpsElsewhere_lower (Or.inl (by omega))
      · refine ihBody (place + 1) (settled_test condition _ walked) ?_ ?_
        · exact (hwalked.mono (by omega) (by omega)).cons_jump rfl (Or.inr (by omega))
        · refine JumpsElsewhere.cons_jump (.cons ?_ rfl) rfl (Or.inl (by omega))
          rw [jumpsElsewhere_append]
          exact ⟨jumpsElsewhere_lower (Or.inl (by omega)),
            (hafter.mono (by omega) (by omega)).cons rfl⟩
      · refine ihOther _ (settled_label (isLoopPair_label _ (by decide) (by decide)) _) ?_ ?_
        · refine JumpsElsewhere.cons (.cons_jump ?_ rfl (Or.inl (by omega))) rfl
          rw [jumpsElsewhere_append, jumpsElsewhere_reverse]
          exact ⟨jumpsElsewhere_lower (Or.inr (by omega)),
            (hwalked.mono (by omega) (by omega)).cons_jump rfl (Or.inl (by omega))⟩
        · exact (hafter.mono (by omega) (by omega)).cons rfl
  | whileLoop condition body ih =>
      simp only [Statement.size] at hwalked hafter
      have hbody : Everywhere RegularAt
          (condition.lower (LabelBase.afterWhile.label place) ::
            .label (LabelBase.beforeWhile.label place) :: walked)
          (.jump (LabelBase.beforeWhile.label place) ::
            .label (LabelBase.afterWhile.label place) :: after) (body.lower (place + 2)) :=
        ih (place + 2) (settled_test condition _ _)
          (((hwalked.mono (by omega) (by omega)).cons rfl).cons_jump rfl (Or.inl (by omega)))
          (((hafter.mono (by omega) (by omega)).cons rfl).cons_jump rfl (Or.inl (by omega)))
      refine everywhere_regularAt_loop (place + (body.size + 4)) (Or.inl rfl) (by decide) (by omega)
        ?_ hwalked hafter hbody
      intro name hname
      exact (madeBetween_of_mem_labelsOf_lower hname).mono (by omega) (by omega)
  | forLoop init condition step body ih =>
      simp only [Statement.size] at hwalked hafter
      have hwalked : JumpsElsewhere (place + 1) (place + (body.size + 6)) (init.lower :: walked) :=
        (hwalked.mono (by omega) (by omega)).cons (Assignment.jumpTarget?_lower init)
      have hafter : JumpsElsewhere (place + 1) (place + (body.size + 6)) after :=
        hafter.mono (by omega) (by omega)
      have hbody : Everywhere RegularAt
          (condition.lower (LabelBase.afterFor.label (place + 1)) ::
            .label (LabelBase.beforeFor.label (place + 1)) :: init.lower :: walked)
          (.jump (LabelBase.beforeFor.label (place + 1)) ::
            .label (LabelBase.afterFor.label (place + 1)) :: after)
          (body.lower (place + 3) ++ [step.lower]) := by
        rw [everywhere_append]
        refine ⟨ih (place + 3) (settled_test condition _ _) ?_ ?_,
          regularAt_assignment step, trivial⟩
        · exact ((hwalked.mono (by omega) (by omega)).cons rfl).cons_jump rfl (Or.inl (by omega))
        · refine JumpsElsewhere.cons ?_ (Assignment.jumpTarget?_lower step)
          exact ((hafter.mono (by omega) (by omega)).cons rfl).cons_jump rfl (Or.inl (by omega))
      have hlabels : ∀ name ∈ labelsOf (body.lower (place + 3) ++ [step.lower]),
          MadeBetween (place + 1 + 1) (place + (body.size + 6)) name := by
        intro name hname
        have hname : name ∈ labelsOf (body.lower (place + 3)) := by simpa using hname
        exact (madeBetween_of_mem_labelsOf_lower hname).mono (by omega) (by omega)
      have hloop := everywhere_regularAt_loop (place + (body.size + 6)) (Or.inr rfl) (by decide)
        (by omega) hlabels hwalked hafter hbody
      refine ⟨regularAt_assignment init, ?_⟩
      simpa [loopAtoms] using hloop

/-- **Every jump of a statement goes back to the head of its loop or ahead.** -/
theorem everywhere_backOrAheadAt_lower (statement : Statement) (place : Nat) :
    Everywhere BackOrAheadAt walked after (statement.lower place) := by
  induction statement generalizing place walked after with
  | skip => trivial
  | seq first rest ihFirst ihRest =>
      rw [Statement.lower, everywhere_append]
      exact ⟨ihFirst place, ihRest _⟩
  | assign assignment => exact ⟨backOrAheadAt_assignment assignment, trivial⟩
  | ifThen condition body ih =>
      refine ⟨trivial, everywhere_append.mpr ⟨ih _, trivial, trivial⟩⟩
  | ifElse condition body other ihBody ihOther =>
      have hnot : ¬NamesLoop (LabelBase.afterIf.label place) :=
        not_namesLoop_iff.mpr (isLoopPair_label place (by decide) (by decide))
      simp only [Statement.lower, List.cons_append, List.append_assoc, Everywhere,
        everywhere_append]
      refine ⟨trivial, ihBody _, Or.inr ⟨hnot, ?_⟩, trivial, ihOther _, trivial, trivial⟩
      simp
  | whileLoop condition body ih =>
      have hloop : NamesLoop (LabelBase.beforeWhile.label place) :=
        namesLoop_label_iff.mpr (Or.inl rfl)
      refine ⟨trivial, trivial, everywhere_append.mpr ⟨ih _, Or.inl ⟨hloop, ?_⟩, trivial, trivial⟩⟩
      exact ⟨_, _, _, _, _, _, _, rfl, rfl⟩
  | forLoop init condition step body ih =>
      have hloop : NamesLoop (LabelBase.beforeFor.label (place + 1)) :=
        namesLoop_label_iff.mpr (Or.inr rfl)
      refine ⟨backOrAheadAt_assignment init, trivial, trivial, everywhere_append.mpr ⟨ih _,
        backOrAheadAt_assignment step, Or.inl ⟨hloop, ?_⟩, trivial, trivial⟩⟩
      exact ⟨step.lower :: (body.lower (place + 3)).reverse, _, _, _, _, _, _, rfl, rfl⟩

end AtomCompiler
