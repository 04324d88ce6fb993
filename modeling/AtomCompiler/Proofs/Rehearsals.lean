import AtomCompiler.Proofs.KnownValues
import AtomCompiler.Proofs.Regions

/-!
# Loops that are run ahead of time

A loop is run ahead of time on a record of what is known.  The record says of every
variable that its value is known, that it is unknown, or nothing at all, and then the
variable is zero.  If the rehearsal ends, the loop itself runs in the same way from every
store that the record is right about, wherever the loop stands in a list.

* `Values.Describes` — a record is right about a store, name by name;
* `stepN_of_part` — a part of a list that runs by itself runs the same in the list;
* `rehearsal_is_exact` — what the end of a rehearsal says about the loop.
-/

namespace AtomCompiler

namespace Values

/-- What is recorded of a variable: its value, or nothing if it is unknown.  Without a
record it is zero. -/
def recorded? (values : Values) (name : String) : Option Float :=
  values.record.getD name (some 0)

/-- Every variable that is not recorded as unknown has its recorded value, or is zero. -/
def Describes (values : Values) (store : Store) : Prop :=
  ∀ name value, values.recorded? name = some value → store name = value

@[simp] theorem recorded?_set_self (values : Values) (name : String) (value : Option Float) :
    (values.set name value).recorded? name = value := by
  simp [recorded?, set]

/-- Recording a value leaves all others as they are. -/
theorem recorded?_set_of_ne {name other : String} (h : name ≠ other) (values : Values)
    (value : Option Float) :
    (values.set name value).recorded? other = values.recorded? other := by
  simp [recorded?, set, Std.TreeMap.getD_insert, h]

variable {values : Values} {store : Store}

/-- Without a record every variable is zero. -/
theorem describes_zero : Describes {} Store.zero := by
  intro name value h
  exact Option.some.inj h

/-- A record stays right when a variable is set, and its new value is recorded or said to
be unknown. -/
theorem Describes.set (h : Describes values store) {known : Option Float} {value : Float}
    (hknown : ∀ number, known = some number → value = number) (name : String) :
    Describes (values.set name known) (store.set name value) := by
  intro other number hnumber
  by_cases hname : other = name
  · subst hname
    rw [recorded?_set_self] at hnumber
    rw [Store.set_self]
    exact hknown number hnumber
  · rw [recorded?_set_of_ne (Ne.symm hname)] at hnumber
    rw [Store.set_of_ne hname]
    exact h other number hnumber

/-- Names that look like literals are recorded like all others, but an operand with such a
name is the literal. -/
theorem Describes.agrees (h : Describes values store) (convention : Convention) :
    Agrees convention values store := by
  intro operand value hvalue
  by_cases hliteral : isLiteral operand
  · rw [value?_of_isLiteral hliteral] at hvalue
    rw [Convention.value, if_pos hliteral, Convention.literal, hvalue]
    rfl
  · rw [value?, if_neg hliteral] at hvalue
    rw [Convention.value, if_neg hliteral]
    exact h operand value hvalue

end Values

variable {convention : Convention} {before region after : List Atom}

/-- A part of a list that runs by itself runs the same in the list. -/
theorem stepN_of_part (hlabels : (labelsOf (before ++ region ++ after)).Nodup) {n place : Nat}
    {store : Store} {finish : AtomState}
    (h : stepN (AtomState.step? convention region) n ⟨place, store⟩ = some finish) :
    stepN (AtomState.step? convention (before ++ region ++ after)) n
      ⟨before.length + place, store⟩ = some ⟨before.length + finish.place, finish.store⟩ := by
  induction n generalizing place store with
  | zero =>
      obtain rfl := Option.some.inj h
      rfl
  | succ n ih =>
      obtain ⟨⟨middle, store'⟩, hstep, hrest⟩ := Option.bind_eq_some_iff.mp h
      rw [stepN_succ, step?_of_part hlabels hstep]
      exact ih hrest

/-- **A loop that was run ahead of time runs in just this way.**  The loop may be any part
of a list in which no label is defined twice, and the store any that the record is right
about.  Control comes from the first atom of the loop to its last in less than ten
thousand steps and does not leave the loop in between.  At the end the new record is right
about the store, and every variable that the loop does not assign is as before.  The
quotient of a division by zero and the value of a literal that is no number do not matter,
since a rehearsal that meets one is given up. -/
theorem rehearsal_is_exact (hregion : region ≠ [])
    (hlabels : (labelsOf (before ++ region ++ after)).Nodup) {values known : Values}
    (hsimulate : values.simulate? region = some known)
    (divisionByZero : Float → Float → Float) (badLiteral : Float) {store : Store}
    (hstore : values.Describes store) :
    let run := stepN (AtomState.step? ⟨divisionByZero, badLiteral, Neg.neg⟩
      (before ++ region ++ after))
    ∃ steps finish, steps < 10000 ∧
      run steps ⟨before.length, store⟩ =
        some ⟨before.length + (region.length - 1), finish⟩ ∧
      (∀ m ≤ steps, ∃ place middle, place < region.length ∧
        run m ⟨before.length, store⟩ = some ⟨before.length + place, middle⟩) ∧
      known.Describes finish ∧
      ∀ name, name ∉ assignedOf region → finish name = store name := by
  intro run
  have hpositive : 0 < region.length := List.length_pos_iff.mpr hregion
  have hregionLabels : (labelsOf region).Nodup := by
    rw [labelsOf_append, labelsOf_append] at hlabels
    exact (List.nodup_append.mp (List.nodup_append.mp hlabels).1).2.1
  have hnegate : (Convention.mk divisionByZero badLiteral Neg.neg).negate = Neg.neg := rfl
  -- carried along: the record is right, and only what the loop assigns has changed
  let rightSoFar (values : Values) (later : Store) : Prop :=
    values.Describes later ∧ ∀ name, name ∉ assignedOf region → later name = store name
  have hset : ∀ values later name value, name ∈ assignedOf region → rightSoFar values later →
      rightSoFar (values.set name (some value)) (later.set name value) := by
    intro values later name value hname h
    refine ⟨h.1.set (fun _ heq => Option.some.inj heq) name, fun other hother => ?_⟩
    have hne : other ≠ name := fun heq => hother (heq ▸ hname)
    rw [Store.set_of_ne hne]
    exact h.2 other hother
  obtain ⟨steps, finish, hsteps, hrun, ⟨hknown, hframe⟩, hinside⟩ :=
    Values.simulateFrom?_keeps hnegate hregionLabels rightSoFar (fun _ _ h => h.1.agrees _) hset
      ⟨hstore, fun _ _ => rfl⟩ hpositive hsimulate
  refine ⟨steps, finish, hsteps, stepN_of_part hlabels hrun, fun m hm => ?_, hknown, hframe⟩
  rcases Nat.lt_or_eq_of_le hm with hlt | rfl
  · obtain ⟨⟨place, middle⟩, hmiddle, hplace⟩ := hinside m hlt
    exact ⟨place, middle, Nat.lt_of_succ_lt hplace, stepN_of_part hlabels hmiddle⟩
  · exact ⟨region.length - 1, finish, by omega, stepN_of_part hlabels hrun⟩

/-- Two loops, one in the other; the inner one is entered from the second round on. -/
def nestedLoops : List Atom :=
  [.label "before_while_1", .test "i" "3" .less "after_while_1", .label "before_while_3",
    .test "j" "i" .less "after_while_3", .arithmetic .add "j" "1" "j",
    .arithmetic .add "sum" "j" "sum", .jump "before_while_3", .label "after_while_3",
    .arithmetic .add "i" "1" "i", .jump "before_while_1", .label "after_while_1"]

/-- The loops are run through although nothing is known of `z`, which they leave alone. -/
theorem rehearsal_is_exact_nestedLoops :
    let values := ((({} : Values).set "z" none).set "i" (some 1))
    let store := (Store.zero.set "z" 7).set "i" 1
    let code := [.move "z" "y"] ++ nestedLoops ++ [.move "sum" "z"]
    ∃ known, values.simulate? nestedLoops = some known ∧ values.Describes store ∧
      ∃ steps finish, steps < 10000 ∧
        stepN (AtomState.step? (.floating Neg.neg) code) steps ⟨1, store⟩ = some ⟨11, finish⟩ ∧
        (∀ m ≤ steps, ∃ place middle, place < 11 ∧
          stepN (AtomState.step? (.floating Neg.neg) code) m ⟨1, store⟩ =
            some ⟨1 + place, middle⟩) ∧
        known.Describes finish ∧ finish "sum" = 3 ∧ finish "z" = 7 := by
  intro values store code
  have hsum : ((values.simulate? nestedLoops).bind fun known => known.recorded? "sum") =
      some 3 := by
    decide +kernel
  obtain ⟨known, hknown, hsum⟩ := Option.bind_eq_some_iff.mp hsum
  have hstore : values.Describes store :=
    (Values.describes_zero.set (fun _ h => by cases h) "z").set
      (fun _ h => Option.some.inj h) "i"
  have hlabels : (labelsOf ([.move "z" "y"] ++ nestedLoops ++ [.move "sum" "z"])).Nodup := by
    decide
  obtain ⟨steps, finish, hsteps, hrun, hinside, hfinish, hframe⟩ :=
    rehearsal_is_exact (by decide) hlabels hknown (· / ·) 0 hstore
  refine ⟨known, hknown, hstore, steps, finish, hsteps, hrun, hinside, hfinish,
    hfinish "sum" 3 hsum, ?_⟩
  rw [hframe "z" (by decide)]
  rfl

end AtomCompiler
