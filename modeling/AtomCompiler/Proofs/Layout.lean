import AtomCompiler.Execution.Atoms
import AtomCompiler.Program.Lower
import AtomCompiler.Proofs.Runs

/-!
# Statements laid out as atoms

`Layout` says that a list of atoms lays out a statement, whatever labels it
uses.  Lowering is one way to lay a statement out, and not the only one: labels
may stand behind it, and parts that are never run may be left out.

A layout need not stand alone.  It may be any part of a longer list, as long as
no label of the list is defined twice.

* `Layout.reaches` — a statement that ends carries control from the beginning of
  its layout to the end of it, with the same change of the store;
* `Layout.executes_of_stepN` — a run from the beginning of a layout that stops
  has executed the statement;
* `Layout.terminates_iff` — a list that lays out a statement ends in a store
  exactly when the statement does.
-/

namespace AtomCompiler

/-! ## Parts of a list -/

/-- A list of atoms stands in a longer one, from the given place on. -/
def Placed (code : List Atom) (place : Nat) (part : List Atom) : Prop :=
  ∃ before after, code = before ++ part ++ after ∧ place = before.length

namespace Placed

variable {code part first second : List Atom} {place : Nat} {atom : Atom}

/-- A list stands in itself. -/
theorem whole (code : List Atom) : Placed code 0 code :=
  ⟨[], [], by simp, rfl⟩

/-- The first atom of a part stands at its place. -/
theorem getElem?_eq (h : Placed code place (atom :: part)) : code[place]? = some atom := by
  obtain ⟨before, after, rfl, rfl⟩ := h
  simp

/-- The rest of a part stands one place further on. -/
theorem tail (h : Placed code place (atom :: part)) : Placed code (place + 1) part := by
  obtain ⟨before, after, rfl, rfl⟩ := h
  exact ⟨before ++ [atom], after, by simp, by simp⟩

/-- The first half of a part stands where the part does. -/
theorem left (h : Placed code place (first ++ second)) : Placed code place first := by
  obtain ⟨before, after, rfl, rfl⟩ := h
  exact ⟨before, second ++ after, by simp, rfl⟩

/-- The second half stands behind the first. -/
theorem right (h : Placed code place (first ++ second)) :
    Placed code (place + first.length) second := by
  obtain ⟨before, after, rfl, rfl⟩ := h
  exact ⟨before ++ first, after, by simp, by simp⟩

end Placed

@[simp] theorem Assignment.label?_lower (assignment : Assignment) :
    assignment.lower.label? = none := by
  unfold lower
  split <;> rfl

@[simp] theorem Condition.label?_lower (condition : Condition) (target : String) :
    (condition.lower target).label? = none := rfl

@[simp] theorem Atom.label?_label (name : String) : (Atom.label name).label? = some name := rfl

@[simp] theorem Atom.label?_jump (target : String) : (Atom.jump target).label? = none := rfl

@[simp] theorem labelsOf_nil : labelsOf [] = [] := rfl

@[simp] theorem labelsOf_cons (atom : Atom) (atoms : List Atom) :
    labelsOf (atom :: atoms) = atom.label?.toList ++ labelsOf atoms := by
  cases h : atom.label? <;> simp [labelsOf, h]

@[simp] theorem labelsOf_append (first second : List Atom) :
    labelsOf (first ++ second) = labelsOf first ++ labelsOf second :=
  List.filterMap_append

@[simp] theorem labelsOf_reverse (atoms : List Atom) :
    labelsOf atoms.reverse = (labelsOf atoms).reverse :=
  List.filterMap_reverse

@[simp] theorem assignedOf_cons (atom : Atom) (atoms : List Atom) :
    assignedOf (atom :: atoms) = atom.assigned?.toList ++ assignedOf atoms := by
  cases h : atom.assigned? <;> simp [assignedOf, h]

@[simp] theorem assignedOf_append (first second : List Atom) :
    assignedOf (first ++ second) = assignedOf first ++ assignedOf second :=
  List.filterMap_append

/-- The labels of a list are those of its label atoms. -/
theorem mem_labelsOf {name : String} {atoms : List Atom} :
    name ∈ labelsOf atoms ↔ Atom.label name ∈ atoms := by
  simp only [labelsOf, List.mem_filterMap]
  constructor
  · rintro ⟨atom, hmem, hlabel⟩
    cases atom <;> simp_all [Atom.label?]
  · intro h
    exact ⟨_, h, rfl⟩

/-- A name has no place exactly if no label has it. -/
theorem labelPlace?_eq_none_iff {code : List Atom} {name : String} :
    labelPlace? code name = none ↔ name ∉ labelsOf code := by
  simp [labelPlace?, labelsOf]

/-- A label is found where it first stands. -/
theorem labelPlace?_append_label {before : List Atom} {name : String}
    (h : name ∉ labelsOf before) (rest : List Atom) :
    labelPlace? (before ++ .label name :: rest) name = some before.length := by
  rw [← labelPlace?_eq_none_iff, labelPlace?] at h
  rw [labelPlace?, List.findIdx?_append, h, List.findIdx?_cons]
  simp [Atom.label?]

/-- **A label that is defined once is found where it stands.** -/
theorem labelPlace?_of_placed {code part : List Atom} {place : Nat} {name : String}
    (hplaced : Placed code place (.label name :: part)) (hlabels : (labelsOf code).Nodup) :
    labelPlace? code name = some place := by
  obtain ⟨before, after, rfl, rfl⟩ := hplaced
  have hfresh : name ∉ labelsOf before := by
    intro hmem
    rw [labelsOf_append, labelsOf_append, labelsOf_cons, List.append_assoc] at hlabels
    exact (List.nodup_append.mp hlabels).2.2 name hmem name (by simp [Atom.label?]) rfl
  rw [List.append_assoc, List.cons_append]
  exact labelPlace?_append_label hfresh (part ++ after)

/-- A label stands in the list. -/
theorem labelPlace?_lt {code : List Atom} {name : String} {place : Nat}
    (h : labelPlace? code name = some place) : place < code.length := by
  obtain ⟨hlt, -⟩ := List.findIdx?_eq_some_iff_getElem.mp h
  exact hlt

section Places

variable {convention : Convention} {code : List Atom}

/-- A step stays in the list or goes to its end. -/
theorem place_le_of_step? {state next : AtomState}
    (h : AtomState.step? convention code state = some next) : next.place ≤ code.length := by
  obtain ⟨atom, hatom, hrun⟩ := Option.bind_eq_some_iff.mp h
  obtain ⟨hlt, -⟩ := List.getElem?_eq_some_iff.mp hatom
  have hgoto : ∀ target, state.goto? code target = some next → next.place ≤ code.length := by
    intro target hgoto
    obtain ⟨place, hplace, rfl⟩ := Option.map_eq_some_iff.mp hgoto
    exact Nat.le_of_lt (labelPlace?_lt hplace)
  cases atom with
  | test left right comparison target =>
      simp only [AtomState.runAtom?] at hrun
      split at hrun
      · obtain rfl := Option.some.inj hrun
        exact hlt
      · exact hgoto target hrun
  | jump target => exact hgoto target hrun
  | _ =>
      obtain rfl := Option.some.inj hrun
      exact hlt

/-- Control never goes beyond the end of the list. -/
theorem place_le_of_reaches {state finish : AtomState} (hplace : state.place ≤ code.length)
    (h : Reaches (AtomState.step? convention code) state finish) :
    finish.place ≤ code.length := by
  obtain ⟨n, hrun⟩ := h
  induction n generalizing state with
  | zero =>
      obtain rfl := Option.some.inj hrun
      exact hplace
  | succ n ih =>
      obtain ⟨next, hstep, hrest⟩ := Option.bind_eq_some_iff.mp hrun
      exact ih (place_le_of_step? hstep) hrest

end Places

/-! ## Texts that are read as they were meant -/

/-- The operand of a factor can be told to be a variable or a literal. -/
def Factor.IsLegible : Factor → Prop
  | identifier name => isLiteral name = false
  | literal text => isLiteral text = true
  | negativeLiteral text => isLiteral ("-" ++ text) = true

/-- All operands of an expression are legible. -/
def Expression.IsLegible : Expression → Prop
  | factor single => single.IsLegible
  | negated name => isLiteral name = false
  | arithmetic _ left right => left.IsLegible ∧ right.IsLegible

/-- All operands of a change are legible. -/
def Update.IsLegible : Update → Prop
  | increment => True
  | decrement => True
  | set value => value.IsLegible

/-- An assignment of legible operands to a variable. -/
def Assignment.IsLegible (assignment : Assignment) : Prop :=
  isLiteral assignment.target = false ∧ assignment.update.IsLegible

/-- A comparison of legible operands. -/
def Condition.IsLegible (condition : Condition) : Prop :=
  condition.left.IsLegible ∧ condition.right.IsLegible

/-- All texts of a statement are legible. -/
def Statement.IsLegible : Statement → Prop
  | skip => True
  | seq first rest => first.IsLegible ∧ rest.IsLegible
  | assign assignment => assignment.IsLegible
  | ifThen condition body => condition.IsLegible ∧ body.IsLegible
  | ifElse condition body other => condition.IsLegible ∧ body.IsLegible ∧ other.IsLegible
  | whileLoop condition body => condition.IsLegible ∧ body.IsLegible
  | forLoop init condition step body =>
    init.IsLegible ∧ condition.IsLegible ∧ step.IsLegible ∧ body.IsLegible

variable {convention : Convention}

/-- The number that `++` adds. -/
theorem Convention.literal_one (convention : Convention) : convention.literal "1" = 1 := by
  have hone : Numeral.value? "1" = some 1 := by decide +kernel
  rw [literal, hone]
  rfl

/-- A variable has the value that the store gives it. -/
theorem Convention.value_of_not_isLiteral {name : String} (h : isLiteral name = false)
    (convention : Convention) (store : Store) : convention.value store name = store name := by
  simp [value, h]

theorem Convention.value_one (convention : Convention) (store : Store) :
    convention.value store "1" = 1 := by
  have hliteral : isLiteral "1" = true := by decide
  rw [value, if_pos hliteral, literal_one]

/-- A legible factor has the value of its operand. -/
theorem Factor.value_operand {factor : Factor} (h : factor.IsLegible) (convention : Convention)
    (store : Store) :
    convention.value store factor.operand = factor.value convention store := by
  cases factor with
  | identifier name => exact Convention.value_of_not_isLiteral h convention store
  | literal text =>
      have htext : isLiteral text = true := h
      rw [operand, Convention.value, if_pos htext]
      rfl
  | negativeLiteral text =>
      have htext : isLiteral ("-" ++ text) = true := h
      rw [operand, Convention.value, if_pos htext]
      rfl

/-! ## Layouts -/

/-- A list of atoms lays out a statement. -/
inductive Layout : Statement → List Atom → Prop
  | skip : Layout .skip []
  | seq {first rest : Statement} {firstAtoms restAtoms : List Atom} :
      Layout first firstAtoms → Layout rest restAtoms →
      Layout (.seq first rest) (firstAtoms ++ restAtoms)
  | assign {assignment : Assignment} :
      assignment.IsLegible → Layout (.assign assignment) [assignment.lower]
  | ifThen {condition : Condition} {body : Statement} {atoms : List Atom} (after : String) :
      condition.IsLegible → Layout body atoms →
      Layout (.ifThen condition body) (condition.lower after :: (atoms ++ [.label after]))
  | ifElse {condition : Condition} {body other : Statement} {atoms otherAtoms : List Atom}
      (beforeElse after : String) :
      condition.IsLegible → Layout body atoms → Layout other otherAtoms →
      Layout (.ifElse condition body other)
        (condition.lower beforeElse ::
          (atoms ++ .jump after :: .label beforeElse :: (otherAtoms ++ [.label after])))
  | whileLoop {condition : Condition} {body : Statement} {atoms : List Atom}
      (before after : String) :
      condition.IsLegible → Layout body atoms →
      Layout (.whileLoop condition body)
        (.label before :: condition.lower after :: (atoms ++ [.jump before, .label after]))
  | forLoop {init : Assignment} {condition : Condition} {step : Assignment} {body : Statement}
      {atoms : List Atom} :
      init.IsLegible → Layout (.whileLoop condition (.seq body (.assign step))) atoms →
      Layout (.forLoop init condition step body) (init.lower :: atoms)
  | labelled {statement : Statement} {atoms : List Atom} (name : String) :
      Layout statement atoms → Layout statement (atoms ++ [.label name])

/-- **Lowering lays a statement out.** -/
theorem layout_lower {statement : Statement} (h : statement.IsLegible) (place : Nat) :
    Layout statement (statement.lower place) := by
  induction statement generalizing place with
  | skip => exact .skip
  | seq first rest ihFirst ihRest => exact .seq (ihFirst h.1 _) (ihRest h.2 _)
  | assign assignment => exact .assign h
  | ifThen condition body ih => exact .ifThen _ h.1 (ih h.2 _)
  | ifElse condition body other ihBody ihOther =>
      have hlayout := Layout.ifElse (LabelBase.beforeElse.label (place + body.size + 2))
        (LabelBase.afterIf.label place) h.1 (ihBody h.2.1 (place + 1))
        (ihOther h.2.2 (place + body.size + 2 + 1))
      simpa [Statement.lower] using hlayout
  | whileLoop condition body ih => exact .whileLoop _ _ h.1 (ih h.2 _)
  | forLoop init condition step body ih =>
      obtain ⟨hinit, hcondition, hstep, hbody⟩ := h
      have hlayout := Layout.forLoop hinit (.whileLoop (LabelBase.beforeFor.label (place + 1))
        (LabelBase.afterFor.label (place + 1)) hcondition
        (.seq (ih hbody (place + 3)) (.assign hstep)))
      simpa [Statement.lower] using hlayout

/-! ## Steps inside a layout -/

section Steps

variable {code part : List Atom} {place : Nat} {store : Store}

/-- The atom of an assignment does what the assignment does. -/
theorem step?_assignment {assignment : Assignment} (h : assignment.IsLegible)
    (hplaced : Placed code place (assignment.lower :: part)) :
    AtomState.step? convention code ⟨place, store⟩ =
      some ⟨place + 1, assignment.run convention store⟩ := by
  obtain ⟨target, update⟩ := assignment
  obtain ⟨htarget, hupdate⟩ := h
  have hvalue := Convention.value_of_not_isLiteral htarget convention store
  rw [AtomState.step?, hplaced.getElem?_eq]
  cases update with
  | increment =>
      simp [Assignment.lower, AtomState.runAtom?, AtomState.next, Assignment.run, hvalue,
        Convention.value_one, Convention.result, Arithmetic.result?]
  | decrement =>
      simp [Assignment.lower, AtomState.runAtom?, AtomState.next, Assignment.run, hvalue,
        Convention.value_one, Convention.result, Arithmetic.result?]
  | set value =>
      cases value with
      | factor single =>
          have hsingle := Factor.value_operand hupdate convention store
          simp [Assignment.lower, AtomState.runAtom?, AtomState.next, Assignment.run,
            Expression.value, hsingle]
      | negated name =>
          have hname := Convention.value_of_not_isLiteral hupdate convention store
          simp [Assignment.lower, AtomState.runAtom?, AtomState.next, Assignment.run,
            Expression.value, hname]
      | arithmetic operation left right =>
          have hleft := Factor.value_operand hupdate.1 convention store
          have hright := Factor.value_operand hupdate.2 convention store
          simp [Assignment.lower, AtomState.runAtom?, AtomState.next, Assignment.run,
            Expression.value, hleft, hright]

/-- The test of a condition that holds goes on. -/
theorem step?_condition_true {condition : Condition} {target : String} (h : condition.IsLegible)
    (hplaced : Placed code place (condition.lower target :: part))
    (hholds : condition.holds convention store = true) :
    AtomState.step? convention code ⟨place, store⟩ = some ⟨place + 1, store⟩ := by
  have hleft := Factor.value_operand h.1 convention store
  have hright := Factor.value_operand h.2 convention store
  rw [Condition.holds, ← hleft, ← hright] at hholds
  rw [AtomState.step?, hplaced.getElem?_eq]
  simp [Condition.lower, AtomState.runAtom?, AtomState.next, hholds]

/-- The test of a condition that fails goes to its label. -/
theorem step?_condition_false {condition : Condition} {target : String} {goal : Nat}
    (h : condition.IsLegible) (hplaced : Placed code place (condition.lower target :: part))
    (hgoal : labelPlace? code target = some goal)
    (hfails : condition.holds convention store = false) :
    AtomState.step? convention code ⟨place, store⟩ = some ⟨goal, store⟩ := by
  have hleft := Factor.value_operand h.1 convention store
  have hright := Factor.value_operand h.2 convention store
  rw [Condition.holds, ← hleft, ← hright] at hfails
  rw [AtomState.step?, hplaced.getElem?_eq]
  simp [Condition.lower, AtomState.runAtom?, AtomState.goto?, hfails, hgoal]

/-- A jump goes to its label. -/
theorem step?_jump {target : String} {goal : Nat}
    (hplaced : Placed code place (.jump target :: part))
    (hgoal : labelPlace? code target = some goal) :
    AtomState.step? convention code ⟨place, store⟩ = some ⟨goal, store⟩ := by
  rw [AtomState.step?, hplaced.getElem?_eq]
  simp [AtomState.runAtom?, AtomState.goto?, hgoal]

/-- A label is passed. -/
theorem step?_label {name : String} (hplaced : Placed code place (.label name :: part)) :
    AtomState.step? convention code ⟨place, store⟩ = some ⟨place + 1, store⟩ := by
  rw [AtomState.step?, hplaced.getElem?_eq]
  rfl

end Steps

/-! ## Runs through a layout -/

section Runs

variable {statement : Statement} {atoms code : List Atom} {place : Nat}

/-- **A statement that ends carries control through its layout.** -/
theorem Layout.reaches (hlayout : Layout statement atoms) (hlabels : (labelsOf code).Nodup)
    (hplaced : Placed code place atoms) {start finish : Store}
    (h : Executes convention statement start finish) :
    Reaches (AtomState.step? convention code) ⟨place, start⟩ ⟨place + atoms.length, finish⟩ := by
  induction hlayout generalizing place start finish with
  | skip =>
      cases h
      exact Reaches.refl _ _
  | @seq first rest firstAtoms restAtoms _ _ ihFirst ihRest =>
      cases h with
      | seq hfirst hrest =>
          have hright := ihRest hplaced.right hrest
          rw [List.length_append, ← Nat.add_assoc]
          exact (ihFirst hplaced.left hfirst).trans hright
  | assign hlegible =>
      cases h
      exact Reaches.single (step?_assignment hlegible hplaced)
  | @ifThen condition body atoms after hlegible _ ih =>
      have hafter := hplaced.tail.right
      have hlength : place + (condition.lower after :: (atoms ++ [.label after])).length =
          place + 1 + atoms.length + 1 := by simp; omega
      rw [hlength]
      cases h with
      | ifThenTrue hholds hbody =>
          have hreach := ih hplaced.tail.left hbody
          exact Reaches.head (step?_condition_true hlegible hplaced hholds)
            (hreach.trans (Reaches.single (step?_label hafter)))
      | ifThenFalse hfails =>
          have hgoal := labelPlace?_of_placed hafter hlabels
          exact Reaches.head (step?_condition_false hlegible hplaced hgoal hfails)
            (Reaches.single (step?_label hafter))
  | @ifElse condition body other atoms otherAtoms beforeElse after hlegible _ _ ihBody ihOther =>
      have hjump := hplaced.tail.right
      have hafter := hjump.tail.tail.right
      have hlength : place + (condition.lower beforeElse ::
          (atoms ++ .jump after :: .label beforeElse :: (otherAtoms ++ [.label after]))).length =
          place + 1 + atoms.length + 1 + 1 + otherAtoms.length + 1 := by simp; omega
      rw [hlength]
      cases h with
      | ifElseTrue hholds hbody =>
          have hreach := ihBody hplaced.tail.left hbody
          have hgoal := labelPlace?_of_placed hafter hlabels
          exact Reaches.head (step?_condition_true hlegible hplaced hholds)
            (hreach.trans (Reaches.head (step?_jump hjump hgoal)
              (Reaches.single (step?_label hafter))))
      | ifElseFalse hfails hother =>
          have hgoal := labelPlace?_of_placed hjump.tail hlabels
          have hreach := ihOther hjump.tail.tail.left hother
          exact Reaches.head (step?_condition_false hlegible hplaced hgoal hfails)
            (Reaches.head (step?_label hjump.tail)
              (hreach.trans (Reaches.single (step?_label hafter))))
  | @whileLoop condition body atoms before after hlegible _ ih =>
      have htest := hplaced.tail
      have hjump := htest.tail.right
      have hlength : place + (.label before :: condition.lower after ::
          (atoms ++ [.jump before, .label after])).length =
          place + 1 + 1 + atoms.length + 1 + 1 := by simp; omega
      rw [hlength]
      -- every round of the loop comes back to its first label
      generalize hloop : Statement.whileLoop condition body = loop at h
      induction h with
      | whileTrue hholds hbody _ _ ihLoop =>
          cases hloop
          have hreach := ih htest.tail.left hbody
          have hgoal := labelPlace?_of_placed hplaced hlabels
          exact Reaches.head (step?_label hplaced)
            (Reaches.head (step?_condition_true hlegible htest hholds)
              (hreach.trans (Reaches.head (step?_jump hjump hgoal) (ihLoop rfl))))
      | whileFalse hfails =>
          cases hloop
          have hgoal := labelPlace?_of_placed hjump.tail hlabels
          exact Reaches.head (step?_label hplaced)
            (Reaches.head (step?_condition_false hlegible htest hgoal hfails)
              (Reaches.single (step?_label hjump.tail)))
      | _ => cases hloop
  | @forLoop init condition step body atoms hinit _ ih =>
      cases h with
      | forLoop hloop =>
          have hreach := ih hplaced.tail hloop
          have hlength : place + (init.lower :: atoms).length = place + 1 + atoms.length := by
            simp; omega
          rw [hlength]
          exact Reaches.head (step?_assignment hinit hplaced) hreach
  | @labelled statement atoms name _ ih =>
      have hreach := ih hplaced.left h
      rw [List.length_append, ← Nat.add_assoc]
      exact hreach.trans (Reaches.single (step?_label hplaced.right))

/-- **A run from the beginning of a layout that stops has executed the
statement,** and the rest of the run begins behind the layout. -/
theorem Layout.executes_of_stepN (hlayout : Layout statement atoms)
    (hlabels : (labelsOf code).Nodup) (hplaced : Placed code place atoms) {n : Nat}
    {start : Store} {finish : AtomState}
    (hrun : stepN (AtomState.step? convention code) n ⟨place, start⟩ = some finish)
    (hstop : AtomState.step? convention code finish = none) :
    ∃ middle k, k ≤ n ∧ Executes convention statement start middle ∧
      stepN (AtomState.step? convention code) k ⟨place + atoms.length, middle⟩ = some finish := by
  induction hlayout generalizing place start n with
  | skip => exact ⟨start, n, Nat.le_refl n, .skip start, hrun⟩
  | seq _ _ ihFirst ihRest =>
      obtain ⟨first, m, hm, hfirst, hrest⟩ := ihFirst hplaced.left hrun
      obtain ⟨middle, k, hk, hsecond, hafter⟩ := ihRest hplaced.right hrest
      rw [Nat.add_assoc, ← List.length_append] at hafter
      exact ⟨middle, k, by omega, .seq hfirst hsecond, hafter⟩
  | assign hlegible =>
      obtain ⟨k, hk, hrest⟩ := stepN_of_step (step?_assignment hlegible hplaced) hrun hstop
      exact ⟨_, k, by omega, .assign _ start, hrest⟩
  | @ifThen condition body atoms after hlegible _ ih =>
      have hafter := hplaced.tail.right
      have hlength : place + (condition.lower after :: (atoms ++ [.label after])).length =
          place + 1 + atoms.length + 1 := by simp; omega
      rw [hlength]
      cases hholds : condition.holds convention start with
      | true =>
          obtain ⟨m, hm, htrue⟩ :=
            stepN_of_step (step?_condition_true hlegible hplaced hholds) hrun hstop
          obtain ⟨middle, k, hk, hbody, hrest⟩ := ih hplaced.tail.left htrue
          obtain ⟨l, hl, hlast⟩ := stepN_of_step (step?_label hafter) hrest hstop
          exact ⟨middle, l, by omega, .ifThenTrue hholds hbody, hlast⟩
      | false =>
          have hgoal := labelPlace?_of_placed hafter hlabels
          obtain ⟨m, hm, hfalse⟩ :=
            stepN_of_step (step?_condition_false hlegible hplaced hgoal hholds) hrun hstop
          obtain ⟨l, hl, hlast⟩ := stepN_of_step (step?_label hafter) hfalse hstop
          exact ⟨start, l, by omega, .ifThenFalse hholds, hlast⟩
  | @ifElse condition body other atoms otherAtoms beforeElse after hlegible _ _ ihBody ihOther =>
      have hjump := hplaced.tail.right
      have hafter := hjump.tail.tail.right
      have hlength : place + (condition.lower beforeElse ::
          (atoms ++ .jump after :: .label beforeElse :: (otherAtoms ++ [.label after]))).length =
          place + 1 + atoms.length + 1 + 1 + otherAtoms.length + 1 := by simp; omega
      rw [hlength]
      cases hholds : condition.holds convention start with
      | true =>
          have hgoal := labelPlace?_of_placed hafter hlabels
          obtain ⟨m, hm, htrue⟩ :=
            stepN_of_step (step?_condition_true hlegible hplaced hholds) hrun hstop
          obtain ⟨middle, k, hk, hbody, hrest⟩ := ihBody hplaced.tail.left htrue
          obtain ⟨j, hj, hjumped⟩ := stepN_of_step (step?_jump hjump hgoal) hrest hstop
          obtain ⟨l, hl, hlast⟩ := stepN_of_step (step?_label hafter) hjumped hstop
          exact ⟨middle, l, by omega, .ifElseTrue hholds hbody, hlast⟩
      | false =>
          have hgoal := labelPlace?_of_placed hjump.tail hlabels
          obtain ⟨m, hm, hfalse⟩ :=
            stepN_of_step (step?_condition_false hlegible hplaced hgoal hholds) hrun hstop
          obtain ⟨j, hj, hinside⟩ := stepN_of_step (step?_label hjump.tail) hfalse hstop
          obtain ⟨middle, k, hk, hother, hrest⟩ := ihOther hjump.tail.tail.left hinside
          obtain ⟨l, hl, hlast⟩ := stepN_of_step (step?_label hafter) hrest hstop
          exact ⟨middle, l, by omega, .ifElseFalse hholds hother, hlast⟩
  | @whileLoop condition body atoms before after hlegible _ ih =>
      have htest := hplaced.tail
      have hjump := htest.tail.right
      have hlength : place + (.label before :: condition.lower after ::
          (atoms ++ [.jump before, .label after])).length =
          place + 1 + 1 + atoms.length + 1 + 1 := by simp; omega
      rw [hlength]
      -- every round of the loop takes at least one step off the run
      induction n using Nat.strongRecOn generalizing start with
      | ind n ihRounds =>
          obtain ⟨m, hm, hentered⟩ := stepN_of_step (step?_label hplaced) hrun hstop
          cases hholds : condition.holds convention start with
          | true =>
              have hgoal := labelPlace?_of_placed hplaced hlabels
              obtain ⟨j, hj, htrue⟩ :=
                stepN_of_step (step?_condition_true hlegible htest hholds) hentered hstop
              obtain ⟨middle, k, hk, hbody, hrest⟩ := ih htest.tail.left htrue
              obtain ⟨l, hl, hagain⟩ := stepN_of_step (step?_jump hjump hgoal) hrest hstop
              obtain ⟨last, i, hi, hloop, hlast⟩ := ihRounds l (by omega) hagain
              exact ⟨last, i, by omega, .whileTrue hholds hbody hloop, hlast⟩
          | false =>
              have hgoal := labelPlace?_of_placed hjump.tail hlabels
              obtain ⟨j, hj, hfalse⟩ :=
                stepN_of_step (step?_condition_false hlegible htest hgoal hholds) hentered hstop
              obtain ⟨l, hl, hlast⟩ := stepN_of_step (step?_label hjump.tail) hfalse hstop
              exact ⟨start, l, by omega, .whileFalse hholds, hlast⟩
  | @forLoop init condition step body atoms hinit _ ih =>
      obtain ⟨m, hm, hloop⟩ := stepN_of_step (step?_assignment hinit hplaced) hrun hstop
      obtain ⟨middle, k, hk, hbody, hrest⟩ := ih hplaced.tail hloop
      have hlength : place + (init.lower :: atoms).length = place + 1 + atoms.length := by
        simp; omega
      rw [hlength]
      exact ⟨middle, k, by omega, .forLoop hbody, hrest⟩
  | @labelled statement atoms name _ ih =>
      obtain ⟨middle, k, hk, hbody, hrest⟩ := ih hplaced.left hrun
      obtain ⟨l, hl, hlast⟩ := stepN_of_step (step?_label hplaced.right) hrest hstop
      rw [List.length_append, ← Nat.add_assoc]
      exact ⟨middle, l, by omega, hbody, hlast⟩

/-- **A list that lays out a statement ends where the statement does.** -/
theorem Layout.terminates_iff (hlayout : Layout statement code)
    (hlabels : (labelsOf code).Nodup) {start finish : Store} :
    Terminates convention code start finish ↔ Executes convention statement start finish := by
  constructor
  · rintro ⟨n, hrun⟩
    obtain ⟨middle, k, -, hbody, hrest⟩ := hlayout.executes_of_stepN hlabels (Placed.whole code)
      hrun (AtomState.step?_length convention code finish)
    rw [Nat.zero_add] at hrest
    have heq := eq_of_stepN_of_stopped hrest (AtomState.step?_length convention code middle)
    obtain rfl : finish = middle := congrArg AtomState.store heq
    exact hbody
  · intro h
    have hreach := hlayout.reaches hlabels (Placed.whole code) h
    rw [Nat.zero_add] at hreach
    exact hreach

end Runs

end AtomCompiler
