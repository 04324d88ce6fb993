import AtomCompiler.Proofs.Acceptance
import AtomCompiler.Proofs.Optimizing

/-!
# Lists without unreachable atoms

Nothing is taken out of a list as unreachable exactly if control cannot fall past any
of its jumps: each is the last atom, or a label stands right behind it.  What is left
of a list is of this shape, and so are the atoms of every program.

* `JumpsMeetLabels` — no jump has anything but a label behind it;
* `keepReachable_eq_self_iff`, `jumpsMeetLabels_keepReachable` — what the pass leaves
  alone, and what it leaves, from any place on;
* `removeUnreachable_fixed_points` — what this says about lists and programs.
-/

namespace AtomCompiler

variable {atom : Atom} {atoms rest : List Atom} {reachable : Bool}

/-- Every jump is the last atom, or stands right before a label. -/
def JumpsMeetLabels (atoms : List Atom) : Prop :=
  ∀ place target, atoms[place]? = some (.jump target) →
    place + 1 = atoms.length ∨ ∃ name, atoms[place + 1]? = some (.label name)

/-- The beginning of a list that control falls into, or that needs no such control: a
label, or nothing at all. -/
def BeginsReachable (reachable : Bool) (atoms : List Atom) : Prop :=
  ∀ atom, atoms.head? = some atom → (reachable || atom.label?.isSome) = true

theorem beginsReachable_nil (reachable : Bool) : BeginsReachable reachable [] := by
  intro atom h
  cases h

theorem beginsReachable_true (atoms : List Atom) : BeginsReachable true atoms :=
  fun _ _ => rfl

/-- A list begins reachable if control comes to it or its first atom is a label. -/
theorem beginsReachable_cons_iff :
    BeginsReachable reachable (atom :: rest) ↔ (reachable || atom.label?.isSome) = true := by
  simp [BeginsReachable]

/-- Where control does not come, a list begins reachable only if it is empty or begins with a
label. -/
theorem beginsReachable_false_iff :
    BeginsReachable false rest ↔ rest = [] ∨ ∃ name, rest.head? = some (.label name) := by
  cases rest with
  | nil => simp [BeginsReachable]
  | cons atom rest => cases atom <;> simp [BeginsReachable, Atom.label?]

/-! ## Jumps one after another -/

theorem jumpsMeetLabels_nil : JumpsMeetLabels [] := by
  intro place target h
  simp at h

/-- The first jump of a list meets its label in the atom behind it. -/
theorem jumpsMeetLabels_cons_iff :
    JumpsMeetLabels (atom :: rest) ↔
      BeginsReachable atom.fallsThrough rest ∧ JumpsMeetLabels rest := by
  have hfirst : (∀ target, atom = .jump target → 1 = (atom :: rest).length ∨
      ∃ name, rest.head? = some (.label name)) ↔ BeginsReachable atom.fallsThrough rest := by
    cases atom with
    | jump target =>
        rw [Atom.fallsThrough, beginsReachable_false_iff]
        simp
    | _ => simp [Atom.fallsThrough, beginsReachable_true]
  rw [← hfirst]
  constructor
  · intro h
    refine ⟨fun target heq => ?_, fun place target hjump => ?_⟩
    · have hmeets := h 0 target (by rw [heq]; rfl)
      rwa [Nat.zero_add, List.getElem?_cons_succ, ← List.head?_eq_getElem?] at hmeets
    · have hmeets := h (place + 1) target hjump
      rwa [List.length_cons, Nat.add_right_cancel_iff, List.getElem?_cons_succ] at hmeets
  · intro h place target hjump
    cases place with
    | zero =>
        have hmeets := h.1 target (Option.some.inj hjump)
        rwa [List.head?_eq_getElem?] at hmeets
    | succ place =>
        have hmeets := h.2 place target hjump
        rwa [List.length_cons, Nat.add_right_cancel_iff, List.getElem?_cons_succ]

/-! ## What the pass leaves -/

/-- **The pass leaves a list alone exactly if every atom can be reached,** by falling
into the list or past a jump to a label. -/
theorem keepReachable_eq_self_iff :
    keepReachable reachable atoms = atoms ↔
      BeginsReachable reachable atoms ∧ JumpsMeetLabels atoms := by
  induction atoms generalizing reachable with
  | nil => simp [keepReachable, jumpsMeetLabels_nil, beginsReachable_nil]
  | cons atom rest ih =>
      rw [keepReachable, beginsReachable_cons_iff, jumpsMeetLabels_cons_iff]
      split
      · next hkept => simp [hkept, ih]
      · next hkept =>
          have hshorter := (keepReachable_sublist false rest).length_le
          have hne : keepReachable false rest ≠ atom :: rest := by
            intro heq
            rw [heq, List.length_cons] at hshorter
            omega
          simp [hkept, hne]

/-- **What the pass leaves is of the shape that it leaves alone.** -/
theorem jumpsMeetLabels_keepReachable (reachable : Bool) (atoms : List Atom) :
    BeginsReachable reachable (keepReachable reachable atoms) ∧
      JumpsMeetLabels (keepReachable reachable atoms) := by
  induction atoms generalizing reachable with
  | nil => exact ⟨beginsReachable_nil reachable, jumpsMeetLabels_nil⟩
  | cons atom rest ih =>
      rw [keepReachable]
      split
      · next hkept =>
          exact ⟨beginsReachable_cons_iff.mpr hkept,
            jumpsMeetLabels_cons_iff.mpr (ih atom.fallsThrough)⟩
      · next hkept =>
          -- the atom goes, and control still does not fall into what follows it
          have hreachable : reachable = false := by
            cases reachable with
            | false => rfl
            | true => exact (hkept rfl).elim
          rw [hreachable]
          exact ih false

/-- Nothing is removed exactly if every jump meets a label or the end. -/
theorem removeUnreachable_eq_self_iff :
    removeUnreachable atoms = atoms ↔ JumpsMeetLabels atoms := by
  rw [removeUnreachable, keepReachable_eq_self_iff]
  exact and_iff_right (beginsReachable_true atoms)

/-- Nothing has changed if nothing is counted as taken out. -/
theorem length_removeUnreachable_iff :
    atoms.length - (removeUnreachable atoms).length = 0 ↔ removeUnreachable atoms = atoms := by
  have hsublist : (removeUnreachable atoms).Sublist atoms := keepReachable_sublist true atoms
  constructor
  · intro h
    exact hsublist.eq_of_length_le (by omega)
  · intro h
    rw [h, Nat.sub_self]

/-- The shape of a list is decided by the pass. -/
instance (atoms : List Atom) : Decidable (JumpsMeetLabels atoms) :=
  decidable_of_iff _ removeUnreachable_eq_self_iff

/-- **What is taken out as unreachable.**  Nothing is, by count and in fact, exactly if
every jump of the list is last or stands right before a label.  What is left is always of
this shape, so the pass changes nothing a second time; and so are the atoms of every
program, whatever its tokens. -/
theorem removeUnreachable_fixed_points (atoms : List Atom) :
    (atoms.length - (removeUnreachable atoms).length = 0 ↔ JumpsMeetLabels atoms) ∧
    (removeUnreachable atoms = atoms ↔ JumpsMeetLabels atoms) ∧
    JumpsMeetLabels (removeUnreachable atoms) ∧
    removeUnreachable (removeUnreachable atoms) = removeUnreachable atoms ∧
    ∀ tokens, compileTokens tokens = .ok atoms →
      JumpsMeetLabels atoms ∧ removeUnreachable atoms = atoms := by
  have hleft : JumpsMeetLabels (removeUnreachable atoms) :=
    (jumpsMeetLabels_keepReachable true atoms).2
  refine ⟨?_, removeUnreachable_eq_self_iff, hleft, removeUnreachable_eq_self_iff.mpr hleft,
    fun tokens h => ?_⟩
  · rw [length_removeUnreachable_iff, removeUnreachable_eq_self_iff]
  · obtain ⟨program, -, rfl⟩ := parse_of_compileTokens h
    have hfixed := removeUnreachable_atoms program
    exact ⟨removeUnreachable_eq_self_iff.mp hfixed, hfixed⟩

/-- Two dead regions that overlap: the second jump is dead itself, and what stands behind
it goes with it. -/
example :
    removeUnreachable [.jump "a", .move "1" "x", .jump "b", .move "2" "x", .label "a",
        .jump "b", .label "b"] = [.jump "a", .label "a", .jump "b", .label "b"] ∧
      ¬JumpsMeetLabels [.jump "a", .jump "b", .label "a", .label "b"] ∧
      JumpsMeetLabels [.label "a", .jump "a"] := by
  decide

/-- A loop in one branch of two, with the jumps of both. -/
theorem removeUnreachable_fixed_points_loopInBranch :
    ∃ atoms, compileTokens (tokensOf
        [.keyword .kwIf, .openParen, .identifier, .less, .integer, .closeParen, .openCurly,
          .keyword .kwWhile, .openParen, .identifier, .equal, .double, .closeParen, .openCurly,
          .identifier, .increment, .semicolon, .closeCurly, .closeCurly, .keyword .kwElse,
          .openCurly, .closeCurly]) = .ok atoms ∧
      atoms.length = 9 ∧ (jumpTargetsOf atoms).length = 4 ∧
      JumpsMeetLabels atoms ∧ removeUnreachable atoms = atoms := by
  have hlengths : ((compileTokens (tokensOf
      [.keyword .kwIf, .openParen, .identifier, .less, .integer, .closeParen, .openCurly,
        .keyword .kwWhile, .openParen, .identifier, .equal, .double, .closeParen, .openCurly,
        .identifier, .increment, .semicolon, .closeCurly, .closeCurly, .keyword .kwElse,
        .openCurly, .closeCurly])).toOption.map fun atoms =>
          (atoms.length, (jumpTargetsOf atoms).length)) = some (9, 4) := by
    decide +kernel
  obtain ⟨atoms, hatoms, hpair⟩ := Option.map_eq_some_iff.mp hlengths
  obtain ⟨hlength, htargets⟩ := Prod.mk.inj hpair
  have hcompile := eq_ok_of_toOption hatoms
  obtain ⟨-, -, -, -, hprogram⟩ := removeUnreachable_fixed_points atoms
  exact ⟨atoms, hcompile, hlength, htargets, hprogram _ hcompile⟩

end AtomCompiler
