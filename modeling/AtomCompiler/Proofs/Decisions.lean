import AtomCompiler.Optimize.Fold
import AtomCompiler.Proofs.Refinement
import AtomCompiler.Proofs.WellFormed

/-!
# How tests are decided

A test is decided in two ways.  The optimizer asks whether the comparison holds; the
machine asks whether the opposite comparison holds, and jumps if it does.  Both come to
the same for numbers that have an order, and for equality also where there is none.  A
result that is undefined has no order to any number, so that the machine goes on where
the optimizer counts on the jump.

* `order?`, `Comparison.accepts` — comparisons look at the order of two numbers;
* `opposite_holds_iff` — when the opposite comparison has the opposite outcome;
* `decisiveTests_iff` — what that means for the tests of a run;
* `ReadsAsJump`, `TestAt` — the optimizer's reading of a test, and its code;
* `emitted_jump_taken_iff` — when the machine does as the optimizer reads.
-/

namespace AtomCompiler

/-! ## Comparisons -/

/-- How two numbers are ordered.  What is undefined has no order to any number. -/
def order? (left right : Float) : Option Ordering :=
  left.toModel.unpack.compare right.toModel.unpack

/-- Exponents and mantissas that are compared the other way round come out the other way. -/
theorem then_swap (exponent exponent' : Int) (mantissa mantissa' : Nat) :
    (compare exponent' exponent).then (compare mantissa' mantissa) =
      ((compare exponent exponent').then (compare mantissa mantissa')).swap := by
  rw [Ordering.swap_then, ← Std.OrientedCmp.eq_swap, ← Std.OrientedCmp.eq_swap]

/-- Numbers of different kinds or signs have a fixed order; only two finite numbers of one
sign are compared by what they hold. -/
theorem compare_swap (first second : Float.Model.UnpackedFloat) :
    second.compare first = (first.compare second).map Ordering.swap := by
  cases first with
  | notANumber => cases second <;> rfl
  | infinity sign =>
      cases second with
      | infinity sign' => cases sign <;> cases sign' <;> rfl
      | _ => cases sign <;> rfl
  | zero sign =>
      cases second with
      | infinity sign' => cases sign' <;> rfl
      | finite sign' => cases sign' <;> rfl
      | _ => rfl
  | finite sign mantissa exponent =>
      cases second with
      | finite sign' mantissa' exponent' =>
          cases sign <;> cases sign'
          case negative.negative =>
            exact congrArg (fun order => some order.swap) (then_swap exponent exponent' _ _)
          case positive.positive =>
            exact congrArg some (then_swap exponent exponent' mantissa mantissa')
          case negative.positive => rfl
          case positive.negative => rfl
      | infinity sign' => cases sign' <;> rfl
      | zero sign' => cases sign <;> rfl
      | notANumber => rfl

/-- The other way round the order is the other. -/
theorem order?_swap (left right : Float) :
    order? right left = (order? left right).map Ordering.swap :=
  compare_swap left.toModel.unpack right.toModel.unpack

/-- Two numbers have an order unless one of them is undefined. -/
theorem isNone_compare (first second : Float.Model.UnpackedFloat) :
    (first.compare second).isNone = (first.isNaN || second.isNaN) := by
  cases first with
  | notANumber => rfl
  | infinity sign => cases sign <;> cases second <;> rfl
  | zero sign =>
      cases second with
      | infinity sign' => cases sign' <;> rfl
      | finite sign' => cases sign' <;> rfl
      | _ => rfl
  | finite sign =>
      cases second with
      | infinity sign' => cases sign' <;> rfl
      | finite sign' => cases sign <;> cases sign' <;> rfl
      | _ => cases sign <;> rfl

/-- Two numbers have no order exactly if one of them is undefined. -/
theorem order?_eq_none_iff {left right : Float} :
    order? left right = none ↔ left.isNaN = true ∨ right.isNaN = true := by
  rw [← Option.isNone_iff_eq_none, order?, isNone_compare]
  exact Bool.or_eq_true_iff

/-- One number is less than another if it comes first in their order. -/
theorem decide_lt_eq (left right : Float) :
    decide (left < right) = (order? left right == some .lt) := by
  rw [Bool.eq_iff_iff, decide_eq_true_iff]
  show decide _ = true ↔ _
  rw [decide_eq_true_iff]
  rfl

/-- One number is at most another if it comes first or they are equal. -/
theorem decide_le_eq (left right : Float) :
    decide (left ≤ right) = (order? left right).any Ordering.isLE := by
  rw [Bool.eq_iff_iff, decide_eq_true_iff]
  show decide _ = true ↔ _
  rw [decide_eq_true_iff]
  rfl

namespace Comparison

/-- Whether a comparison holds of two numbers in the given order. -/
def accepts : Comparison → Option Ordering → Bool
  | always, _ => true
  | notEqual, order => order != some .eq
  | greaterOrEqual, order => order.any Ordering.isGE
  | lessOrEqual, order => order.any Ordering.isLE
  | greater, order => order == some .gt
  | less, order => order == some .lt
  | equal, order => order == some .eq

/-- **A comparison looks at nothing but the order of two numbers.** -/
theorem holds_eq_accepts (comparison : Comparison) (left right : Float) :
    comparison.holds left right = comparison.accepts (order? left right) := by
  cases comparison with
  | always => rfl
  | notEqual => rfl
  | equal => rfl
  | less => exact decide_lt_eq left right
  | lessOrEqual => exact decide_le_eq left right
  | greater =>
      refine (decide_lt_eq right left).trans ?_
      rw [order?_swap, accepts]
      rcases order? left right with _ | _ | _ | _ <;> rfl
  | greaterOrEqual =>
      refine (decide_le_eq right left).trans ?_
      rw [order?_swap, accepts]
      rcases order? left right with _ | _ | _ | _ <;> rfl

/-- A comparison is for equality, or it compares two numbers that have an order. -/
def Decides (comparison : Comparison) (left right : Float) : Prop :=
  comparison = equal ∨ comparison = notEqual ∨ left.isNaN = false ∧ right.isNaN = false

/-- A comparison decides if it is for equality or the numbers have an order. -/
theorem decides_iff {comparison : Comparison} {left right : Float} :
    comparison.Decides left right ↔
      comparison = equal ∨ comparison = notEqual ∨ order? left right ≠ none := by
  rw [Decides, Ne, order?_eq_none_iff, not_or, Bool.not_eq_true, Bool.not_eq_true]

/-- The opposite comparison accepts exactly the other orders, and without an order only those for
equality still do. -/
theorem accepts_opposite_iff {comparison opposite : Comparison}
    (h : comparison.opposite? = some opposite) (order : Option Ordering) :
    opposite.accepts order = (!comparison.accepts order) ↔
      comparison = equal ∨ comparison = notEqual ∨ order ≠ none := by
  rcases order with _ | _ | _ | _ <;> cases comparison <;> cases h <;> decide

/-- **When the opposite comparison has the opposite outcome:** for equality on all
numbers, and for order on those that have one. -/
theorem opposite_holds_iff {comparison opposite : Comparison}
    (h : comparison.opposite? = some opposite) (left right : Float) :
    opposite.holds left right = (!comparison.holds left right) ↔
      comparison.Decides left right := by
  rw [holds_eq_accepts, holds_eq_accepts, accepts_opposite_iff h, decides_iff]

end Comparison

/-- **The tests of a run are decisive exactly if none of them orders what is
undefined.** -/
theorem decisiveTests_iff {convention : Convention} {atoms : List Atom} {start : Store} :
    DecisiveTests convention atoms start ↔
      ∀ place store left right comparison target,
        Reaches (AtomState.step? convention atoms) ⟨0, start⟩ ⟨place, store⟩ →
        atoms[place]? = some (.test left right comparison target) → comparison ≠ .always →
        comparison.Decides (convention.value store left) (convention.value store right) := by
  constructor
  · intro h place store left right comparison target hreach hatom hne
    obtain ⟨opposite, hopposite⟩ :=
      Option.isSome_iff_exists.mp (Comparison.opposite?_isSome_iff.mpr hne)
    exact (Comparison.opposite_holds_iff hopposite _ _).mp
      (h place store left right comparison target opposite hreach hatom hopposite)
  · intro h place store left right comparison target opposite hreach hatom hopposite
    have hne : comparison ≠ .always :=
      Comparison.opposite?_isSome_iff.mp (Option.isSome_of_eq_some hopposite)
    exact (Comparison.opposite_holds_iff hopposite _ _).mpr
      (h place store left right comparison target hreach hatom hne)

/-! ## The optimizer -/

/-- The optimizer reads a test as one that jumps: the walk over the atoms takes it as
failed, and where a loop is run ahead of time control goes to the label. -/
structure ReadsAsJump (values : Values) (left right : String) (comparison : Comparison)
    (target : String) : Prop where
  outcome : values.outcome? left comparison right = some false
  simulated : ∀ code place,
    values.simulateAtom? code place (.test left right comparison target) =
      (lastLabel? target code).map fun goal => (values, goal)

/-- Where both values are known, the optimizer reads a test as a jump exactly if its comparison
fails. -/
theorem readsAsJump_iff {values : Values} {left right : String} {first second : Float}
    (hleft : values.value? left = some first) (hright : values.value? right = some second)
    (comparison : Comparison) (target : String) :
    ReadsAsJump values left right comparison target ↔ comparison.holds first second = false := by
  have houtcome : values.outcome? left comparison right = some (comparison.holds first second) := by
    simp [Values.outcome?, hleft, hright]
  constructor
  · intro h
    exact Option.some.inj (houtcome.symm.trans h.outcome)
  · intro h
    rw [h] at houtcome
    refine ⟨houtcome, fun code place => ?_⟩
    rw [Values.simulateAtom?, houtcome]
    cases lastLabel? target code <;> rfl

/-! ## The machine -/

/-- The code of a test in an emitted program: the comparison stands at `place`, with the
jump behind it, and the jump goes to `goal`. -/
structure TestAt (atoms : List Atom) (mask : List Bool) (memory : Memory) (number : Nat)
    (right target : String) (opposite : Comparison) (place goal : Nat) : Prop where
  place_eq : place = moved 0 mask (wordsOf (atoms.take number) + 1)
  goal_eq : goal = moved 0 mask (goalIn atoms target)
  compares : memory.program[place]? = some (.compare opposite (memory.cellOf right))
  jumps : memory.program[place + 1]? =
    some { Instruction.jump with address := wordBytes * goal }

section Machine

variable {atoms : List Atom} {mask : List Bool} {memory : Memory} {number : Nat}
  {left right target : String} {comparison opposite : Comparison} {place goal : Nat}

/-- A jump to a label goes to where the label has moved. -/
theorem Emitted.redirect_jump (h : Emitted atoms memory) (mask : List Bool) (label : String) :
    Instruction.redirect mask
        { Instruction.jump with address := Relocations.addressOf (goalIn atoms label) } =
      { Instruction.jump with address := wordBytes * moved 0 mask (goalIn atoms label) } := by
  have hgoal := h.goalIn_lt label
  have hmoved := moved_le mask (goalIn atoms label)
  have hlt : moved 0 mask (goalIn atoms label) < 0x40000000 := by
    simp only [programBytes, wordBytes] at hgoal
    omega
  simp only [Instruction.redirect, Instruction.jump, if_true, h.addressOf_goalIn,
    Relocations.addressOf_of_lt hlt]

/-- The comparison and the jump of a test are never dropped. -/
theorem Emitted.testAt (hemitted : Emitted atoms memory)
    (hdrops : DropsTransfers mask memory.program)
    (hatom : atoms[number]? = some (.test left right comparison target))
    (hopposite : comparison.opposite? = some opposite) :
    ∃ place goal, TestAt atoms mask { memory with program := shortenedProgram mask memory.program }
      number right target opposite place goal := by
  have hcode : (Atom.test left right comparison target).code memory.cellOf (goalIn atoms) =
      [{ operation := .load, address := memory.cellOf left },
        .compare opposite (memory.cellOf right),
        { Instruction.jump with address := Relocations.addressOf (goalIn atoms target) }] := by
    simp [Atom.code, hopposite]
  have hcompare : memory.program[wordsOf (atoms.take number) + 1]? =
      some (.compare opposite (memory.cellOf right)) :=
    hemitted.fetch hatom (by rw [hcode]; rfl)
  have hjump : memory.program[wordsOf (atoms.take number) + 2]? =
      some { Instruction.jump with address := Relocations.addressOf (goalIn atoms target) } :=
    hemitted.fetch hatom (by rw [hcode]; rfl)
  have hkept := hdrops.kept hcompare rfl
  refine ⟨_, _, rfl, rfl, ?_, ?_⟩
  · rw [fetch_of_keptAt hdrops.length (keptAt_moved hkept), hcompare]
    rfl
  · have hnext : moved 0 mask (wordsOf (atoms.take number) + 1) + 1 =
        moved 0 mask (wordsOf (atoms.take number) + 2) := (moved_add_one hkept).symm
    rw [hnext, fetch_of_keptAt hdrops.length (keptAt_moved (hdrops.kept hjump rfl)), hjump,
      Option.map_some, hemitted.redirect_jump]

/-- The machine compares and jumps, or goes on behind the jump. -/
theorem TestAt.stepN_eq (h : TestAt atoms mask memory number right target opposite place goal)
    (convention : Convention) {machine : MachineState} (hplace : machine.place = place) :
    stepN (MachineState.step? convention memory.program) 2 machine =
      some { machine with
             place :=
              if opposite.holds machine.accumulator (machine.cells (memory.cellOf right)) then goal
              else place + 2
             flag := opposite.holds machine.accumulator (machine.cells (memory.cellOf right)) } := by
  subst hplace
  have hgoal : wordBytes * goal / wordBytes = goal := Nat.mul_div_cancel_left goal (by decide)
  rw [stepN_jumpIf convention h.compares h.jumps, hgoal]

/-- **The machine does as the optimizer reads exactly if the comparison decides.** -/
theorem TestAt.taken_iff (h : TestAt atoms mask memory number right target opposite place goal)
    (hopposite : comparison.opposite? = some opposite) (convention : Convention) {values : Values}
    {machine : MachineState} (hplace : machine.place = place)
    (hleft : values.value? left = some machine.accumulator)
    (hright : values.value? right = some (machine.cells (memory.cellOf right))) :
    ∃ taken : Bool,
      stepN (MachineState.step? convention memory.program) 2 machine =
        some { machine with place := if taken then goal else place + 2, flag := taken } ∧
      ((taken = true ↔ ReadsAsJump values left right comparison target) ↔
        comparison.Decides machine.accumulator (machine.cells (memory.cellOf right))) := by
  refine ⟨_, h.stepN_eq convention hplace, ?_⟩
  have hboth : ∀ taken held : Bool, (taken = true ↔ held = false) ↔ taken = !held := by
    decide
  rw [readsAsJump_iff hleft hright, ← Comparison.opposite_holds_iff hopposite]
  exact hboth _ _

end Machine

/-- **When the emitted jump agrees with the optimizer.**  A test that is not for `always` is
emitted as a comparison for the opposite and a jump.  The opposite comparison has the
opposite outcome exactly if the comparison decides, that is, unless something undefined is
compared for its order.  So if the accumulator and the cell hold what the optimizer knows,
then the jump is taken exactly when the optimizer reads the test as one that jumps, again
unless something undefined is compared for its order. -/
theorem emitted_jump_taken_iff {atoms : List Atom} {shortened : Bool} {memory : Memory}
    (h : emit atoms shortened = .ok memory) {number : Nat} {left right target : String}
    {comparison : Comparison}
    (hatom : atoms[number]? = some (.test left right comparison target))
    (hcomparison : comparison ≠ .always) :
    ∃ written opposite place goal, Emission.ofAtoms atoms = .ok written ∧
      comparison.opposite? = some opposite ∧
      TestAt atoms (written.kept shortened) memory number right target opposite place goal ∧
      (∀ first second, opposite.holds first second = (!comparison.holds first second) ↔
        comparison.Decides first second) ∧
      ∀ (convention : Convention) (values : Values) (machine : MachineState),
        machine.place = place → values.value? left = some machine.accumulator →
        values.value? right = some (machine.cells (memory.cellOf right)) →
        ∃ taken : Bool,
          stepN (MachineState.step? convention memory.program) 2 machine =
            some { machine with place := if taken then goal else place + 2, flag := taken } ∧
          ((taken = true ↔ ReadsAsJump values left right comparison target) ↔
            comparison.Decides machine.accumulator (machine.cells (memory.cellOf right))) := by
  obtain ⟨opposite, hopposite⟩ :=
    Option.isSome_iff_exists.mp (Comparison.opposite?_isSome_iff.mpr hcomparison)
  obtain ⟨written, whole, hwritten, hwhole, rfl, hdrops⟩ := exists_left_of_emit h
  obtain ⟨place, goal, htest⟩ := (emitted_of_emit hwhole).testAt hdrops hatom hopposite
  refine ⟨written, opposite, place, goal, hwritten, hopposite, htest,
    Comparison.opposite_holds_iff hopposite, ?_⟩
  intro convention values machine hplace hleft hright
  exact htest.taken_iff hopposite convention hplace hleft hright

/-- A test on zero times a number that is too large. -/
def undefinedTest : List Atom :=
  [.arithmetic .multiply "1e999" "0" "x", .test "x" "1" .less "end", .move "1" "y", .label "end"]

/-- If the variable were two, the test would be read as one that jumps, and the jump is
taken. -/
theorem emitted_jump_taken_iff_undefinedTest :
    ∃ (memory : Memory) (written : Emission) (place goal : Nat),
      emit undefinedTest false = .ok memory ∧
      TestAt undefinedTest (written.kept false) memory 1 "1" "end" .greaterOrEqual place goal ∧
      ReadsAsJump (Values.set {} "x" (some 2)) "x" "1" .less "end" ∧
      stepN (MachineState.step? .machine memory.program) 2
        ⟨place, 2, false, fun _ => 1⟩ = some ⟨goal, 2, true, fun _ => 1⟩ := by
  have hsome : (emit undefinedTest false).toOption.isSome = true := by decide +kernel
  obtain ⟨memory, hmemory⟩ := Option.isSome_iff_exists.mp hsome
  have hemit := eq_ok_of_toOption hmemory
  have hatom : undefinedTest[1]? = some (.test "x" "1" .less "end") := rfl
  have hleft : (Values.set {} "x" (some 2)).value? "x" = some 2 := by decide +kernel
  have hright : (Values.set {} "x" (some 2)).value? "1" = some 1 := by decide +kernel
  have hreads : ReadsAsJump (Values.set {} "x" (some 2)) "x" "1" .less "end" :=
    (readsAsJump_iff hleft hright _ _).mpr (by decide +kernel)
  have hdecides : Comparison.less.Decides 2 1 := .inr (.inr (by decide +kernel))
  obtain ⟨written, opposite, place, goal, -, hopposite, htest, -, htaken⟩ :=
    emitted_jump_taken_iff hemit hatom (by decide)
  obtain rfl : Comparison.greaterOrEqual = opposite := Option.some.inj hopposite
  obtain ⟨taken, hsteps, hiff⟩ := htaken .machine _
    ⟨place, 2, false, fun _ => 1⟩ rfl hleft hright
  obtain rfl : taken = true := (hiff.mpr hdecides).mpr hreads
  exact ⟨memory, written, place, goal, hemit, htest, hreads, hsteps⟩

/-- **The jump does not agree with the optimizer where a result is undefined.**  The
optimizer deletes what is behind the test, and the machine runs it. -/
theorem undefined_test_goes_on :
    Comparison.less.opposite? = some .greaterOrEqual ∧
      Comparison.less.holds (Float.ofBits 0x7ff8000000000000) 1 = false ∧
      Comparison.greaterOrEqual.holds (Float.ofBits 0x7ff8000000000000) 1 = false ∧
      foldBranches undefinedTest = [.arithmetic .multiply "1e999" "0" "x"] ∧
      ∃ memory slot halted, emit undefinedTest false = .ok memory ∧
        memory.slot? "y" = some slot ∧
        memory.HaltsIn .machine 0 false halted ∧
        halted.cells (cellAddress slot) = 1 := by
  have hrun : ((emit undefinedTest false).toOption.bind fun memory =>
      (stepN (MachineState.step? .machine memory.program) 8
        (memory.load 0 false)).map fun halted =>
          (memory.slot? "y", memory.program[halted.place]?, halted.cells (cellAddress 4))) =
        some (some 4, some { operation := .halt }, 1) := by
    decide +kernel
  obtain ⟨memory, hmemory, hrun⟩ := Option.bind_eq_some_iff.mp hrun
  obtain ⟨halted, hrun, hfacts⟩ := Option.map_eq_some_iff.mp hrun
  simp only [Prod.mk.injEq] at hfacts
  obtain ⟨hslot, hhalt, hone⟩ := hfacts
  refine ⟨rfl, by decide +kernel, by decide +kernel, by decide +kernel, memory, 4, halted,
    eq_ok_of_toOption hmemory, hslot, ⟨⟨8, hrun⟩, _, hhalt, rfl⟩, hone⟩

end AtomCompiler
