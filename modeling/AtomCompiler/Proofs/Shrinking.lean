import AtomCompiler.Optimize.Basic
import AtomCompiler.Proofs.Branches
import AtomCompiler.Proofs.Emittable

/-!
# Optimised lists can still be emitted

The optimiser only deletes atoms, and never a label that is still jumped to, however
the list jumps.  So what could be emitted can still be, in no more words and no more
cells.

* `optimize_pruned` — what the optimiser leaves of a list;
* `Pruned.emittable` — what is left of a list that can be emitted can be emitted;
* `optimize_stays_emittable` — both together, and the sizes.
-/

namespace AtomCompiler

/-! ## What the optimiser leaves -/

/-- Taking out unreachable atoms leaves what the rest needs. -/
theorem removeUnreachable_pruned (atoms : List Atom) : Pruned (removeUnreachable atoms) atoms := by
  refine ⟨keepReachable_sublist true atoms, fun target _ hlabel => ?_⟩
  rw [removeUnreachable, labelsOf_keepReachable]
  exact hlabel

/-- So does folding branches. -/
theorem foldBranches_pruned (atoms : List Atom) : Pruned (foldBranches atoms) atoms := by
  have hdrop : ∀ before region after, entersFrom (before ++ after) region = false →
      Pruned (before ++ region ++ after) atoms → Pruned (before ++ after) atoms := by
    intro before region after hout hpruned
    exact (Pruned.without_region hout).trans hpruned
  exact Folding.finish_induction (fun list => Pruned list atoms) hdrop {} [] atoms
    (Pruned.refl atoms)

/-- **The optimiser deletes no label that is still jumped to.** -/
theorem optimize_pruned (atoms : List Atom) : Pruned (optimize atoms) atoms :=
  (foldBranches_pruned _).trans (removeUnreachable_pruned atoms)

/-! ## Sizes -/

/-- The goals of the code are among the targets of the atoms. -/
theorem goalsOf_subset_jumpTargetsOf {atoms : List Atom} {label : String}
    (h : label ∈ goalsOf atoms) : label ∈ jumpTargetsOf atoms := by
  obtain ⟨atom, hatom, hgoal⟩ := List.mem_filterMap.mp h
  refine List.mem_filterMap.mpr ⟨atom, hatom, ?_⟩
  cases atom with
  | test left right comparison target =>
      cases hopposite : comparison.opposite? <;> simp_all [Atom.goal?, Atom.jumpTarget?]
  | jump target => exact hgoal
  | _ => cases hgoal

namespace Pruned

variable {shorter longer : List Atom}

/-- Deleting atoms brings no new texts. -/
theorem textsOf_subset (h : Pruned shorter longer) {text : String} (htext : text ∈ textsOf shorter) :
    text ∈ textsOf longer := by
  obtain ⟨atom, hatom, htext⟩ := List.mem_flatMap.mp htext
  exact List.mem_flatMap.mpr ⟨atom, h.sublist.subset hatom, htext⟩

/-- Deleting atoms brings no new operands. -/
theorem operandsOf_subset (h : Pruned shorter longer) {text : String}
    (htext : text ∈ operandsOf shorter) : text ∈ operandsOf longer := by
  obtain ⟨atom, hatom, htext⟩ := List.mem_flatMap.mp htext
  exact List.mem_flatMap.mpr ⟨atom, h.sublist.subset hatom, htext⟩

/-- **What is left of a list that can be emitted can be emitted.** -/
theorem emittable (h : Pruned shorter longer) (hlonger : Emittable longer) : Emittable shorter where
  labels := h.nodup_labelsOf hlonger.labels
  goals := by
    intro label hlabel
    have hgoal := (h.sublist.filterMap Atom.goal?).subset hlabel
    exact h.labels label (goalsOf_subset_jumpTargetsOf hlabel) (hlonger.goals label hgoal)
  readable := fun text htext => hlonger.readable text (h.operandsOf_subset htext)
  words := by
    have hle := wordsOf_le_of_sublist h.sublist
    have hroom := hlonger.words
    omega
  cells := hlonger.cells.of_subset fun _ => h.textsOf_subset

/-- It takes no more words and no more cells. -/
theorem emit (h : Pruned shorter longer) {memory : Memory}
    (hmemory : AtomCompiler.emit longer false = .ok memory) :
    ∃ smaller, AtomCompiler.emit shorter false = .ok smaller ∧
      smaller.program.length ≤ memory.program.length ∧ smaller.cells.size ≤ memory.cells.size := by
  have hlonger := (emit_succeedsIff longer).ok_iff.mp ⟨memory, hmemory⟩
  obtain ⟨smaller, hsmaller⟩ := (emit_succeedsIff shorter).ok_iff.mpr (h.emittable hlonger)
  obtain ⟨hlength, hholds⟩ := (emit_succeedsIff longer).property memory hmemory
  obtain ⟨hlength', hholds'⟩ := (emit_succeedsIff shorter).property smaller hsmaller
  refine ⟨smaller, hsmaller, ?_, ?_⟩
  · have hle := wordsOf_le_of_sublist h.sublist
    omega
  · rw [hholds.size, hholds'.size]
    refine Finset.card_le_card fun text htext => ?_
    exact List.mem_toFinset.mpr (h.textsOf_subset (List.mem_toFinset.mp htext))

end Pruned

/-- **Optimising breaks no list that can be emitted.**  What is left is a part of the
list; its labels are in order if those of the list are; and if the list can be emitted,
so can what is left, in no more words and no more cells. -/
theorem optimize_stays_emittable (atoms : List Atom) :
    (optimize atoms).Sublist atoms ∧
      (checkLabels atoms = .ok () → checkLabels (optimize atoms) = .ok ()) ∧
      ∀ memory, emit atoms false = .ok memory → ∃ smaller,
        emit (optimize atoms) false = .ok smaller ∧
        smaller.program.length ≤ memory.program.length ∧
        smaller.cells.size ≤ memory.cells.size := by
  have hpruned := optimize_pruned atoms
  refine ⟨hpruned.sublist, fun hchecked => ?_, fun memory hmemory => hpruned.emit hmemory⟩
  exact checkLabels_eq_ok_iff.mpr (hpruned.closed (checkLabels_eq_ok_iff.mp hchecked))

/-- A branch that is never taken holds a loop of its own, which is entered in the middle;
it goes with its labels, and the atoms behind the last jump go too. -/
def deadLoop : List Atom :=
  [.test "x" "0" .greater "done", .jump "inside", .label "again", .arithmetic .add "x" "y" "x",
    .label "inside", .test "x" "9" .greaterOrEqual "again", .label "done", .move "1" "z",
    .jump "end", .move "2" "z", .label "end"]

/-- A loop that is entered in the middle goes, and what is left is smaller. -/
theorem optimize_stays_emittable_deadLoop :
    checkLabels deadLoop = .ok () ∧ checkLabels (optimize deadLoop) = .ok () ∧
      ∃ memory smaller, emit deadLoop false = .ok memory ∧
        emit (optimize deadLoop) false = .ok smaller ∧
        memory.program.length = 18 ∧ smaller.program.length ≤ 18 ∧
        smaller.cells.size ≤ memory.cells.size := by
  obtain ⟨-, hlabels, hemit⟩ := optimize_stays_emittable deadLoop
  have hchecked : checkLabels deadLoop = .ok () := by decide +kernel
  have hmemory : ((emit deadLoop false).toOption.map fun memory => memory.program.length) =
      some 18 := by
    decide +kernel
  obtain ⟨memory, hmemory, hlength⟩ := Option.map_eq_some_iff.mp hmemory
  obtain ⟨smaller, hsmaller, hprogram, hcells⟩ := hemit memory (eq_ok_of_toOption hmemory)
  exact ⟨hchecked, hlabels hchecked, memory, smaller, eq_ok_of_toOption hmemory, hsmaller,
    hlength, hlength ▸ hprogram, hcells⟩

end AtomCompiler
