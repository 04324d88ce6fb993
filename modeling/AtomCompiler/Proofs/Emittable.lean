import AtomCompiler.Proofs.Numerals
import AtomCompiler.Proofs.Shortening
import Mathlib.Data.Finset.Card

/-!
# When emission succeeds

Emission can run out of words or of cells, meet a literal that is no number, a
label that is defined twice, or a jump without a label.  Each part of it succeeds
exactly under a condition on what has been written before, and the conditions add
up: whether a list of atoms can be emitted, and how large its program and its data
are, can be told from the list.

* `SucceedsIff` — when a computation succeeds, and what its result is like;
* `Emission.Filled.atom` — the outcome of one atom;
* `Emission.Filled.atoms` — the outcome of a list of atoms;
* `Emittable` — what is asked of a list of atoms;
* `emit_succeedsIff` — emission succeeds exactly for such lists, with a program and
  data of known size;
* `emit_ok_iff` — the same with the limits as numbers, whether or not the program is
  shortened.
-/

namespace AtomCompiler

/-! ## Computations that may fail -/

/-- A computation succeeds exactly under a condition, and its result has a property. -/
structure SucceedsIff {ε α : Type} (result : Except ε α) (condition : Prop) (property : α → Prop) :
    Prop where
  ok_iff : (∃ value, result = .ok value) ↔ condition
  property : ∀ value, result = .ok value → property value

namespace SucceedsIff

variable {ε α β : Type} {result : Except ε α} {condition condition' : Prop} {property : α → Prop}

/-- A value is always there. -/
theorem pure {value : α} (h : property value) :
    SucceedsIff (Except.ok value : Except ε α) True property :=
  ⟨⟨fun _ => trivial, fun _ => ⟨value, rfl⟩⟩, fun _ heq => Except.ok.inj heq ▸ h⟩

/-- A failure never gives a value. -/
theorem error {failure : ε} : SucceedsIff (Except.error failure : Except ε α) False property :=
  ⟨by simp, fun _ heq => nomatch heq⟩

/-- One computation after another. -/
theorem bind {next : α → Except ε β} {later : β → Prop} (h : SucceedsIff result condition property)
    (hnext : ∀ value, property value → SucceedsIff (next value) condition' later) :
    SucceedsIff (result >>= next) (condition ∧ condition') later := by
  refine ⟨⟨?_, ?_⟩, ?_⟩
  · rintro ⟨value, heq⟩
    obtain ⟨first, hfirst, heq⟩ := bind_eq_ok heq
    exact ⟨h.ok_iff.mp ⟨first, hfirst⟩,
      (hnext first (h.property first hfirst)).ok_iff.mp ⟨value, heq⟩⟩
  · rintro ⟨hcondition, hcondition'⟩
    obtain ⟨first, hfirst⟩ := h.ok_iff.mpr hcondition
    obtain ⟨value, hvalue⟩ := (hnext first (h.property first hfirst)).ok_iff.mpr hcondition'
    exact ⟨value, by rw [hfirst]; exact hvalue⟩
  · intro value heq
    obtain ⟨first, hfirst, heq⟩ := bind_eq_ok heq
    exact (hnext first (h.property first hfirst)).property value heq

/-- The condition may be put in other words. -/
theorem iff (h : SucceedsIff result condition property) (hiff : condition ↔ condition') :
    SucceedsIff result condition' property :=
  ⟨h.ok_iff.trans hiff, h.property⟩

/-- The property may be weakened. -/
theorem imp {property' : α → Prop} (h : SucceedsIff result condition property)
    (himp : ∀ value, property value → property' value) : SucceedsIff result condition property' :=
  ⟨h.ok_iff, fun value heq => himp value (h.property value heq)⟩

/-- A property that is known otherwise may be added. -/
theorem and {property' : α → Prop} (h : SucceedsIff result condition property)
    (hproperty : ∀ value, result = .ok value → property' value) :
    SucceedsIff result condition fun value => property value ∧ property' value :=
  ⟨h.ok_iff, fun value heq => ⟨h.property value heq, hproperty value heq⟩⟩

end SucceedsIff

/-! ## Room in memory -/

/-- How many instructions there is room for. -/
def maxWords : Nat := programBytes / wordBytes

/-- How many cells have an address that fits into an instruction. -/
def maxCells : Nat := (maxAddress + 1 - programBytes) / cellBytes

/-- The address of a slot is in range exactly if its number is. -/
theorem cellAddress_le_iff {slot : Nat} : cellAddress slot ≤ maxAddress ↔ slot < maxCells := by
  simp only [cellAddress, programBytes, cellBytes, maxAddress, maxCells]
  omega

/-- There are cells for all of some texts. -/
def Fits (texts : List String) : Prop := texts.toFinset.card ≤ maxCells

/-- Fewer texts fit as well. -/
theorem Fits.of_subset {texts others : List String} (h : Fits texts)
    (hsubset : ∀ text ∈ others, text ∈ texts) : Fits others := by
  refine Nat.le_trans (Finset.card_le_card fun text htext => ?_) h
  exact List.mem_toFinset.mpr (hsubset text (List.mem_toFinset.mp htext))

theorem Fits.left {texts others : List String} (h : Fits (texts ++ others)) : Fits texts :=
  h.of_subset fun _ htext => List.mem_append_left _ htext

/-- A new text is one more. -/
theorem card_concat {texts : List String} {name : String} (hnot : name ∉ texts) :
    (texts ++ [name]).toFinset.card = texts.toFinset.card + 1 := by
  rw [List.toFinset_append, List.toFinset_cons, List.toFinset_nil, insert_empty_eq,
    Finset.union_comm, ← Finset.insert_eq, Finset.card_insert_of_notMem (by simpa using hnot)]

/-- A text can be the text of an operand: if it looks like a literal it is one. -/
def Readable (text : String) : Prop :=
  isLiteral text = true → (Numeral.bits? text).isSome

theorem readable_zero : Readable "0" := fun _ => by decide +kernel

/-- The texts that have cells, and how many cells there are. -/
structure Memory.Holds (memory : Memory) (texts : List String) : Prop where
  has : ∀ text, (memory.slot? text).isSome ↔ text ∈ texts
  size : memory.cells.size = texts.toFinset.card
  slot_lt : ∀ text slot, memory.slot? text = some slot → slot < memory.cells.size
  fits : Fits texts

theorem Memory.holds_empty : Memory.Holds {} [] := by
  refine ⟨fun text => ?_, rfl, fun text slot h => ?_, Nat.zero_le _⟩
  · simp [slot?]
  · simp [slot?] at h

namespace Memory.Holds

variable {memory : Memory} {texts : List String} {name : String}

/-- What a memory holds depends on its cells alone. -/
theorem congr {other : Memory} (h : memory.Holds texts) (hslots : other.slots = memory.slots)
    (hcells : other.cells = memory.cells) : other.Holds texts := by
  obtain ⟨hhas, hsize, hlt, hfits⟩ := h
  simp only [slot?, ← hslots, ← hcells] at hhas hsize hlt
  exact ⟨hhas, hsize, hlt, hfits⟩

/-- A text that has a cell may be used again. -/
theorem again (h : memory.Holds texts) (hmem : name ∈ texts) : memory.Holds (texts ++ [name]) := by
  have hsame : ∀ text, text ∈ texts ++ [name] ↔ text ∈ texts := by
    intro text
    simp only [List.mem_append, List.mem_singleton]
    exact ⟨fun htext => htext.elim id (· ▸ hmem), Or.inl⟩
  have hcard : (texts ++ [name]).toFinset = texts.toFinset := by
    ext text
    simp only [List.mem_toFinset, hsame]
  refine ⟨fun text => ?_, by rw [hcard]; exact h.size, h.slot_lt, by rw [Fits, hcard]; exact h.fits⟩
  rw [hsame, h.has]

/-- A new text gets the next cell. -/
theorem addCell (h : memory.Holds texts) (hnot : name ∉ texts) (hfits : Fits (texts ++ [name]))
    (bits : UInt64) : (memory.addCell name bits).Holds (texts ++ [name]) := by
  have hgrown : (memory.addCell name bits).cells.size = memory.cells.size + 1 := by
    simp [Memory.addCell]
  refine ⟨fun text => ?_, by rw [hgrown, card_concat hnot, h.size], ?_, hfits⟩
  · rw [slot?_addCell, List.mem_append, List.mem_singleton, ← h.has text]
    by_cases heq : name = text
    · simp [heq]
    · simp [heq, Ne.symm heq]
  · intro text slot htext
    rw [slot?_addCell] at htext
    rw [hgrown]
    split at htext
    · have hslot := Option.some.inj htext
      omega
    · have hlt := h.slot_lt text slot htext
      omega

end Memory.Holds

/-- What has been written: cells for some texts, a number of words, and some labels. -/
structure Emission.Filled (emission : Emission) (texts : List String) (words : Nat)
    (labels : List String) : Prop where
  holds : emission.memory.Holds texts
  length : emission.memory.program.length = words
  room : words ≤ maxWords
  defined : ∀ name, (emission.relocations.labelIndex? name).isSome ↔ name ∈ labels
  nodup : labels.Nodup

namespace Emission.Filled

variable {emission : Emission} {texts : List String} {words : Nat} {labels : List String}

/-! ## Parts of an emission -/

/-- A text gets a cell unless all cells are taken. -/
theorem allocate (h : emission.Filled texts words labels) (name : String) (bits : UInt64) :
    SucceedsIff (emission.change fun memory => memory.allocate name bits) (Fits (texts ++ [name]))
      fun (_, next) => next.Filled (texts ++ [name]) words labels := by
  obtain ⟨memory, relocations⟩ := emission
  have hholds : memory.Holds texts := h.holds
  cases hslot : memory.slot? name with
  | some slot =>
      have hagain := hholds.again ((hholds.has name).mp (by simp [hslot]))
      simp only [change, Memory.allocate, hslot]
      exact (SucceedsIff.pure ⟨hagain, h.length, h.room, h.defined, h.nodup⟩).iff
        ⟨fun _ => hagain.fits, fun _ => trivial⟩
  | none =>
      have hnot : name ∉ texts := fun hmem => by simpa [hslot] using (hholds.has name).mpr hmem
      have hfits : cellAddress memory.cells.size ≤ maxAddress ↔ Fits (texts ++ [name]) := by
        rw [cellAddress_le_iff, Fits, card_concat hnot, hholds.size]
        rfl
      simp only [change, Memory.allocate, hslot]
      by_cases hroom : cellAddress memory.cells.size ≤ maxAddress
      · have hnew := hholds.addCell hnot (hfits.mp hroom) bits
        simp only [hroom, if_true]
        exact (SucceedsIff.pure ⟨hnew, h.length, h.room, h.defined, h.nodup⟩).iff
          ⟨fun _ => hnew.fits, fun _ => trivial⟩
      · simp only [hroom, if_false]
        exact SucceedsIff.error.iff ⟨False.elim, fun h => hroom (hfits.mpr h)⟩

/-- A result needs a cell. -/
theorem result (h : emission.Filled texts words labels) (name : String) :
    SucceedsIff (emission.result name) (Fits (texts ++ [name]))
      fun (_, next) => next.Filled (texts ++ [name]) words labels :=
  h.allocate name 0

/-- A literal gets a cell if it is a number. -/
theorem literal (h : emission.Filled texts words labels) (text : String) :
    SucceedsIff (emission.change fun memory => memory.allocateLiteral text)
      ((Numeral.bits? text).isSome ∧ Fits (texts ++ [text]))
      fun (_, next) => next.Filled (texts ++ [text]) words labels := by
  cases hbits : Numeral.bits? text with
  | some bits =>
      simp only [Memory.allocateLiteral, hbits]
      exact (h.allocate text bits).iff (by simp)
  | none =>
      obtain ⟨memory, relocations⟩ := emission
      simp only [change, Memory.allocateLiteral, hbits]
      exact SucceedsIff.error.iff (by simp)

/-- The zero of a negation or a jump needs a cell. -/
theorem zero (h : emission.Filled texts words labels) :
    SucceedsIff emission.zero (Fits (texts ++ ["0"]))
      fun (_, next) => next.Filled (texts ++ ["0"]) words labels :=
  (h.literal "0").iff (and_iff_right (readable_zero (by decide)))

/-- An operand needs a cell, and must be readable if it is a literal. -/
theorem operand (h : emission.Filled texts words labels) (text : String) :
    SucceedsIff (emission.operand text) (Readable text ∧ Fits (texts ++ [text]))
      fun (_, next) => next.Filled (texts ++ [text]) words labels := by
  by_cases hliteral : isLiteral text = true
  · simp only [Emission.operand, Memory.allocateOperand, hliteral, if_true]
    exact (h.literal text).iff (by simp [Readable, hliteral])
  · simp only [Emission.operand, Memory.allocateOperand, hliteral, Bool.false_eq_true, if_false]
    exact (h.result text).iff (by simp [Readable, hliteral])

/-- An instruction is written unless the program is full. -/
theorem push (h : emission.Filled texts words labels) (instruction : Instruction) :
    SucceedsIff (emission.push instruction) (words + 1 ≤ maxWords)
      fun (index, next) => index = words ∧ next.Filled texts (words + 1) labels := by
  obtain ⟨memory, relocations⟩ := emission
  have hlength : memory.program.length = words := h.length
  simp only [Emission.push, change, Memory.push, hlength]
  by_cases hroom : words + 1 ≤ maxWords
  · have hlt : words < programBytes / wordBytes := hroom
    simp only [hlt, if_true]
    refine (SucceedsIff.pure ⟨rfl, ?_⟩).iff ⟨fun _ => hroom, fun _ => trivial⟩
    exact ⟨h.holds.congr rfl rfl, by simp [hlength], hroom, h.defined, h.nodup⟩
  · have hlt : ¬words < programBytes / wordBytes := hroom
    simp only [hlt, if_false]
    exact SucceedsIff.error.iff ⟨False.elim, hroom⟩

/-- An instruction needs a word. -/
theorem write (h : emission.Filled texts words labels) (operation : Operation) (address : Nat) :
    SucceedsIff (emission.write operation address) (words + 1 ≤ maxWords)
      fun next => next.Filled texts (words + 1) labels := by
  refine ((h.push { operation, address }).bind fun value hvalue => ?_).iff (and_true _ |>.to_iff)
  exact SucceedsIff.pure hvalue.2

/-- A conditional jump needs two words. -/
theorem jumpIf (h : emission.Filled texts words labels) (comparison : Comparison) (address : Nat)
    (label : String) :
    SucceedsIff (emission.jumpIf comparison address label) (words + 2 ≤ maxWords)
      fun next => next.Filled texts (words + 2) labels := by
  refine ((h.push (.compare comparison address)).bind fun first hfirst =>
    (hfirst.2.push .jump).bind fun second hsecond => SucceedsIff.pure ?_).iff ?_
  · obtain ⟨-, hholds, hlength, hroom, hdefined, hnodup⟩ := hsecond
    exact ⟨hholds, hlength, hroom, hdefined, hnodup⟩
  · simp only [and_true]
    omega

/-- A label gets a place unless it has one. -/
theorem label (h : emission.Filled texts words labels) (name : String) :
    SucceedsIff (emission.label name) (labels ++ [name]).Nodup
      fun next => next.Filled texts words (labels ++ [name]) := by
  have hnew : (labels ++ [name]).Nodup ↔ name ∉ labels := by
    simp only [List.nodup_append, h.nodup, List.nodup_singleton, List.mem_singleton, true_and]
    exact ⟨fun hne hmem => hne name hmem name rfl rfl, fun hnot other hother _ heq heq' =>
      hnot (heq ▸ heq' ▸ hother)⟩
  have hdefined := h.defined name
  simp only [Emission.label, Relocations.defineNew]
  by_cases hmem : name ∈ labels
  · simp only [hdefined.mpr hmem, if_true]
    exact SucceedsIff.error.iff (by simp [hnew, hmem])
  · have hnone : ¬(emission.relocations.labelIndex? name).isSome = true := fun hsome =>
      hmem (hdefined.mp hsome)
    simp only [hnone, Bool.false_eq_true, if_false]
    refine (SucceedsIff.pure ?_).iff (by simp [hnew, hmem])
    refine ⟨h.holds, h.length, h.room, fun other => ?_, hnew.mpr hmem⟩
    by_cases heq : other = name
    · subst heq
      simp [Relocations.labelIndex?_define_self]
    · rw [Relocations.labelIndex?_define_of_ne heq, h.defined]
      simp [heq]

/-! ## Atoms -/

/-- An atom that combines two operands into a variable takes three words. -/
theorem combine (h : emission.Filled texts words labels) (operation : Operation)
    (left right result : Nat) :
    SucceedsIff (do
        let emission ← emission.write .load left
        let emission ← emission.write operation right
        emission.write .store result)
      (words + 3 ≤ maxWords) fun next => next.Filled texts (words + 3) labels := by
  refine ((h.write .load left).bind fun _ h₁ => (h₁.write operation right).bind fun _ h₂ =>
    h₂.write .store result).iff ?_
  omega

end Emission.Filled

/-- The texts that an atom reads as operands. -/
def Atom.operands : Atom → List String
  | arithmetic _ left right _ => [left, right]
  | negate source _ => [source]
  | move source _ => [source]
  | test left right _ _ => [left, right]
  | jump _ => []
  | label _ => []

namespace Emission.Filled

variable {emission : Emission} {texts : List String} {words : Nat} {labels : List String}

/-- **The outcome of one atom.** -/
theorem atom (h : emission.Filled texts words labels) (atom : Atom) :
    SucceedsIff (emission.atom atom)
      ((∀ text ∈ atom.operands, Readable text) ∧ Fits (texts ++ atom.texts) ∧
        words + atom.words ≤ maxWords ∧ (labels ++ atom.label?.toList).Nodup)
      fun next => next.Filled (texts ++ atom.texts) (words + atom.words)
        (labels ++ atom.label?.toList) := by
  have hnodup : (labels ++ (none : Option String).toList).Nodup := by simpa using h.nodup
  cases atom with
  | arithmetic operation left right result =>
      refine (((h.operand left).bind fun _ h₁ => (h₁.operand right).bind fun _ h₂ =>
        (h₂.result result).bind fun _ h₃ => h₃.combine (.arithmetic operation) _ _ _).iff ?_).imp ?_
      · simp only [Atom.operands, Atom.texts, Atom.words, Atom.label?, hnodup]
        grind [Fits.left]
      · simp [Atom.texts, Atom.words, Atom.label?]
  | negate source result =>
      refine ((h.zero.bind fun _ h₁ => (h₁.operand source).bind fun _ h₂ =>
        (h₂.result result).bind fun _ h₃ => h₃.combine (.arithmetic .subtract) _ _ _).iff ?_).imp ?_
      · simp only [Atom.operands, Atom.texts, Atom.words, Atom.label?, hnodup]
        grind [Fits.left]
      · simp [Atom.texts, Atom.words, Atom.label?]
  | move source result =>
      simp only [Emission.atom]
      split
      · next hzero =>
          subst hzero
          refine (((h.write .clear 0).bind fun _ h₁ => (h₁.result result).bind fun _ h₂ =>
            h₂.write .store _).iff ?_).imp ?_
          · simp only [Atom.operands, Atom.texts, Atom.words, Atom.label?, hnodup]
            grind [readable_zero]
          · simp [Atom.texts, Atom.words, Atom.label?]
      · next hzero =>
          refine (((h.operand source).bind fun _ h₁ => (h₁.write .load _).bind fun _ h₂ =>
            (h₂.result result).bind fun _ h₃ => h₃.write .store _).iff ?_).imp ?_
          · simp only [Atom.operands, Atom.texts, Atom.words, Atom.label?, hzero, hnodup]
            grind [Fits.left]
          · simp [Atom.texts, Atom.words, Atom.label?, hzero]
  | test left right comparison target =>
      cases hopposite : comparison.opposite? with
      | some opposite =>
          simp only [Emission.atom, hopposite]
          refine (((h.operand left).bind fun _ h₁ => (h₁.operand right).bind fun _ h₂ =>
            (h₂.write .load _).bind fun _ h₃ => h₃.jumpIf opposite _ target).iff ?_).imp ?_
          · simp only [Atom.operands, Atom.texts, Atom.words, Atom.label?, hopposite, hnodup]
            grind [Fits.left]
          · simp [Atom.texts, Atom.words, Atom.label?, hopposite]
      | none =>
          -- a test that cannot fail is not written, but its operands get their cells
          simp only [Emission.atom, hopposite]
          refine ((h.operand left).bind fun _ h₁ => (h₁.operand right).bind fun _ h₂ =>
            SucceedsIff.pure ?_).iff ?_
          · simpa [Atom.texts, Atom.words, Atom.label?, hopposite] using h₂
          · have hroom := h.room
            simp only [Atom.operands, Atom.texts, Atom.words, Atom.label?, hopposite, hnodup]
            grind [Fits.left]
  | jump target =>
      refine ((h.zero.bind fun _ h₁ => h₁.jumpIf .always _ target).iff ?_).imp ?_
      · simp [Atom.operands, Atom.texts, Atom.words, Atom.label?, h.nodup]
      · simp [Atom.texts, Atom.words, Atom.label?]
  | label name =>
      refine ((h.label name).iff ?_).imp ?_
      · simp [Atom.operands, Atom.texts, Atom.words, Atom.label?, h.holds.fits, h.room]
      · simp [Atom.texts, Atom.words, Atom.label?]

end Emission.Filled

/-! ## Lists of atoms -/

/-- Fewer atoms have no more words. -/
theorem wordsOf_le_of_sublist {shorter longer : List Atom} (h : shorter.Sublist longer) :
    wordsOf shorter ≤ wordsOf longer := by
  induction h with
  | slnil => exact Nat.le_refl _
  | cons atom _ ih => exact Nat.le_trans ih (Nat.le_add_left _ _)
  | cons_cons atom _ ih => exact Nat.add_le_add_left ih _

/-- The texts that a list of atoms gives cells to, with repetitions. -/
def textsOf (atoms : List Atom) : List String := atoms.flatMap Atom.texts

/-- The texts that a list of atoms reads as operands. -/
def operandsOf (atoms : List Atom) : List String := atoms.flatMap Atom.operands

/-- The label that the code of an atom jumps to. -/
def Atom.goal? : Atom → Option String
  | test _ _ comparison target => if comparison.opposite?.isSome then some target else none
  | jump target => some target
  | _ => none

/-- The labels that the code of a list of atoms jumps to. -/
def goalsOf (atoms : List Atom) : List String := atoms.filterMap Atom.goal?

/-- **What is asked of a list of atoms that can be emitted.** -/
structure Emittable (atoms : List Atom) : Prop where
  labels : (labelsOf atoms).Nodup
  goals : ∀ label ∈ goalsOf atoms, label ∈ labelsOf atoms
  readable : ∀ text ∈ operandsOf atoms, Readable text
  words : wordsOf atoms + 1 ≤ maxWords
  cells : Fits (textsOf atoms)

/-- **The outcome of a list of atoms.** -/
theorem Emission.Filled.atoms {emission : Emission} {texts : List String} {words : Nat}
    {labels : List String} (h : emission.Filled texts words labels) (atoms : List Atom) :
    SucceedsIff (emission.atoms atoms)
      ((∀ text ∈ operandsOf atoms, Readable text) ∧ Fits (texts ++ textsOf atoms) ∧
        words + wordsOf atoms ≤ maxWords ∧ (labels ++ labelsOf atoms).Nodup)
      fun next => next.Filled (texts ++ textsOf atoms) (words + wordsOf atoms)
        (labels ++ labelsOf atoms) := by
  induction atoms generalizing emission texts words labels with
  | nil =>
      refine (SucceedsIff.pure ?_).iff ?_
      · simpa [textsOf, labelsOf] using h
      · simp [operandsOf, textsOf, labelsOf, h.holds.fits, h.room, h.nodup]
  | cons atom atoms ih =>
      rw [Emission.atoms, List.foldlM_cons]
      refine (((h.atom atom).bind fun next hnext => ih hnext).iff ?_).imp ?_
      · -- room for all the atoms is room for the first one
        simp only [operandsOf, textsOf, List.flatMap_cons, wordsOf_cons, labelsOf_cons,
          List.forall_mem_append, ← List.append_assoc]
        constructor
        · rintro ⟨⟨hread, -, -, -⟩, hreads, hfits, hroom, hnodup⟩
          exact ⟨⟨hread, hreads⟩, hfits, by omega, hnodup⟩
        · rintro ⟨⟨hread, hreads⟩, hfits, hroom, hnodup⟩
          exact ⟨⟨hread, hfits.left, by omega, (List.nodup_append.mp hnodup).1⟩, hreads, hfits,
            by omega, hnodup⟩
      · intro next hnext
        simpa [textsOf, labelsOf_cons, Nat.add_assoc] using hnext

theorem Emission.filled_empty : Emission.Filled {} [] 0 [] :=
  ⟨Memory.holds_empty, rfl, Nat.zero_le _, fun _ => by simp [Relocations.labelIndex?],
    List.nodup_nil⟩

/-! ## Addresses of jumps -/

/-- The jumps that wait for an address go to the goals of the atoms. -/
theorem forall_mem_referencesFrom_iff {property : String → Prop} {index : Nat}
    {atoms : List Atom} :
    (∀ entry ∈ referencesFrom index atoms, property entry.2) ↔
      ∀ label ∈ goalsOf atoms, property label := by
  induction atoms generalizing index with
  | nil => simp [referencesFrom, goalsOf]
  | cons atom atoms ih =>
      have hfirst : (∀ entry ∈ (atom.reference? index).toList, property entry.2) ↔
          ∀ label ∈ atom.goal?.toList, property label := by
        cases atom with
        | test left right comparison target =>
            cases hopposite : comparison.opposite? <;>
              simp [Atom.reference?, Atom.goal?, hopposite]
        | _ => simp [Atom.reference?, Atom.goal?]
      have hgoals : goalsOf (atom :: atoms) = atom.goal?.toList ++ goalsOf atoms := by
        cases hgoal : atom.goal? <;> simp [goalsOf, hgoal]
      rw [referencesFrom, hgoals, List.forall_mem_append, List.forall_mem_append, hfirst, ih]

/-- Patching finds all labels exactly if every reference has one. -/
theorem Relocations.patch_eq_none_iff (relocations : Relocations)
    (references : List (Nat × String)) (program : List Instruction) :
    (relocations.patch references program).2 = none ↔
      ∀ entry ∈ references, (relocations.labelIndex? entry.2).isSome := by
  induction references generalizing program with
  | nil => simp [patch]
  | cons entry rest ih =>
      obtain ⟨index, label⟩ := entry
      rw [patch]
      split
      · next target hlabel => simp [ih, hlabel]
      · next hlabel => simp [hlabel]

/-- Addresses are filled in if every jump has a label to go to. -/
theorem Emission.resolve_succeedsIff (emission : Emission) :
    SucceedsIff emission.resolve
      (∀ entry ∈ emission.relocations.references,
        (emission.relocations.labelIndex? entry.2).isSome)
      fun memory => memory.program.length = emission.memory.program.length ∧
        memory.slots = emission.memory.slots ∧ memory.cells = emission.memory.cells := by
  rw [← Relocations.patch_eq_none_iff _ _ emission.memory.program]
  have hlength := emission.relocations.length_patch emission.relocations.references
    emission.memory.program
  simp only [resolve, Relocations.resolve]
  cases hpatch : emission.relocations.patch emission.relocations.references
      emission.memory.program with
  | mk program error =>
      rw [hpatch] at hlength
      cases error with
      | none => exact (SucceedsIff.pure ⟨hlength, rfl, rfl⟩).iff (by simp)
      | some error => exact SucceedsIff.error.iff (by simp)

/-- All atoms are written before addresses are filled in. -/
theorem Emission.ofAtoms_succeedsIff (atoms : List Atom) :
    SucceedsIff (Emission.ofAtoms atoms)
      ((labelsOf atoms).Nodup ∧ (∀ text ∈ operandsOf atoms, Readable text) ∧
        wordsOf atoms + 1 ≤ maxWords ∧ Fits (textsOf atoms))
      fun emission => emission.Filled (textsOf atoms) (wordsOf atoms + 1) (labelsOf atoms) ∧
        emission.relocations.references = referencesFrom 0 atoms := by
  have hparts := (filled_empty.atoms atoms).bind fun emission hemission =>
    hemission.write .halt 0
  simp only [List.nil_append, Nat.zero_add] at hparts
  refine (hparts.iff ?_).and fun emission h => ?_
  · constructor
    · rintro ⟨⟨hread, hfits, -, hnodup⟩, hroom⟩
      exact ⟨hnodup, hread, hroom, hfits⟩
    · rintro ⟨hnodup, hread, hroom, hfits⟩
      exact ⟨⟨hread, hfits, by omega, hnodup⟩, hroom⟩
  · obtain ⟨written, hwrote, -, rfl⟩ := ofAtoms_eq_ok h
    exact hwrote.references

/-- **Emission succeeds exactly for the lists that can be emitted,** and the sizes of
program and data can be told from the list. -/
theorem emit_succeedsIff (atoms : List Atom) :
    SucceedsIff (emit atoms false) (Emittable atoms) fun memory =>
      memory.program.length = wordsOf atoms + 1 ∧ memory.Holds (textsOf atoms) := by
  rw [emit_eq_bind]
  have hresolve : ∀ emission : Emission,
      emission.Filled (textsOf atoms) (wordsOf atoms + 1) (labelsOf atoms) ∧
        emission.relocations.references = referencesFrom 0 atoms →
      SucceedsIff emission.resolve (∀ label ∈ goalsOf atoms, label ∈ labelsOf atoms) fun memory =>
        memory.program.length = wordsOf atoms + 1 ∧ memory.Holds (textsOf atoms) := by
    rintro emission ⟨hfilled, hreferences⟩
    refine (emission.resolve_succeedsIff.iff ?_).imp ?_
    · simp only [hreferences, hfilled.defined]
      exact forall_mem_referencesFrom_iff
    · rintro memory ⟨hlength, hslots, hcells⟩
      exact ⟨hlength.trans hfilled.length, hfilled.holds.congr hslots hcells⟩
  refine ((Emission.ofAtoms_succeedsIff atoms).bind hresolve).iff ?_
  constructor
  · rintro ⟨⟨hnodup, hread, hroom, hfits⟩, hgoals⟩
    exact ⟨hnodup, hgoals, hread, hroom, hfits⟩
  · rintro ⟨hnodup, hgoals, hread, hroom, hfits⟩
    exact ⟨⟨hnodup, hread, hroom, hfits⟩, hgoals⟩

/-! ## Limits -/

/-- Every comparison has an opposite but the one that always holds. -/
theorem Comparison.opposite?_isSome_iff {comparison : Comparison} :
    comparison.opposite?.isSome ↔ comparison ≠ .always := by
  cases comparison <;> simp [opposite?]

/-- A label is a goal if a jump leads to it, or a test that can fail. -/
theorem mem_goalsOf_iff {atoms : List Atom} {label : String} :
    label ∈ goalsOf atoms ↔ .jump label ∈ atoms ∨
      ∃ left right comparison, comparison ≠ .always ∧
        .test left right comparison label ∈ atoms := by
  rw [goalsOf, List.mem_filterMap]
  constructor
  · intro h
    obtain ⟨atom, hmem, hgoal⟩ := h
    cases atom with
    | jump target =>
        obtain rfl := Option.some.inj hgoal
        exact .inl hmem
    | test left right comparison target =>
        simp only [Atom.goal?, Comparison.opposite?_isSome_iff, Option.ite_none_right_eq_some,
          Option.some.injEq] at hgoal
        obtain ⟨hne, rfl⟩ := hgoal
        exact .inr ⟨left, right, comparison, hne, hmem⟩
    | _ => cases hgoal
  · intro h
    obtain hjump | ⟨left, right, comparison, hne, htest⟩ := h
    · exact ⟨_, hjump, rfl⟩
    · exact ⟨_, htest, if_pos (Comparison.opposite?_isSome_iff.mpr hne)⟩

/-- Whether there is a program does not depend on shortening. -/
theorem exists_emit_iff (atoms : List Atom) (shortened : Bool) :
    (∃ memory, emit atoms shortened = .ok memory) ↔ ∃ memory, emit atoms false = .ok memory := by
  cases shortened with
  | false => rfl
  | true =>
      rw [emit_shortened]
      cases emit atoms false with
      | ok memory => simp [Except.map]
      | error error => simp [Except.map]

theorem maxWords_eq : maxWords = 128 := rfl

theorem maxCells_eq : maxCells = 131008 := rfl

/-- **Emission succeeds exactly when it should.**  No label is defined twice; every jump
and every test that can fail has a label to go to; every operand that looks like a
literal is a numeral; the program and the instruction that halts it fit into 128 words;
and the different texts fit into 131008 cells.  Shortening makes no difference, and
without it program and data are as large as these counts say. -/
theorem emit_ok_iff (atoms : List Atom) (shortened : Bool) :
    ((∃ memory, emit atoms shortened = .ok memory) ↔
        (labelsOf atoms).Nodup ∧
        (∀ label, (.jump label ∈ atoms ∨ ∃ left right comparison, comparison ≠ .always ∧
          .test left right comparison label ∈ atoms) → label ∈ labelsOf atoms) ∧
        (∀ text ∈ operandsOf atoms, isLiteral text = true → IsNumeral text.toList) ∧
        1 + wordsOf atoms ≤ 128 ∧
        (textsOf atoms).toFinset.card ≤ 131008) ∧
      ∀ memory, emit atoms false = .ok memory →
        memory.program.length = 1 + wordsOf atoms ∧
        memory.cells.size = (textsOf atoms).toFinset.card := by
  constructor
  · rw [exists_emit_iff, (emit_succeedsIff atoms).ok_iff]
    simp only [← mem_goalsOf_iff, ← Numeral.bits?_isSome_iff, Nat.add_comm 1, ← maxWords_eq,
      ← maxCells_eq]
    constructor
    · intro h
      exact ⟨h.labels, h.goals, h.readable, h.words, h.cells⟩
    · intro h
      obtain ⟨hlabels, hgoals, hreadable, hwords, hcells⟩ := h
      exact ⟨hlabels, hgoals, hreadable, hwords, hcells⟩
  · intro memory h
    obtain ⟨hlength, hholds⟩ := (emit_succeedsIff atoms).property memory h
    exact ⟨by rw [hlength, Nat.add_comm], hholds.size⟩

/-- Atoms that fill the program: 41 sums of three words each, a test that is not written,
and two words each for a move and a jump. -/
def fullProgram : List Atom :=
  List.replicate 41 (.arithmetic .add "x" "1e2" "x") ++
    [.test "x" "-3.5" .always "nowhere", .move "0" "y", .jump "end", .label "end"]

/-- There is room for the atoms that fill the program, and not for one more; their five texts
have cells of their own. -/
theorem emit_ok_iff_fullProgram :
    (∃ memory, emit fullProgram true = .ok memory) ∧
      (¬∃ memory, emit (.move "0" "z" :: fullProgram) true = .ok memory) ∧
      ∀ memory, emit fullProgram false = .ok memory →
        memory.program.length = 128 ∧ memory.cells.size = 5 := by
  have hgoals : ∀ label ∈ goalsOf fullProgram, label ∈ labelsOf fullProgram := by decide +kernel
  have hnumerals : ∀ text ∈ operandsOf fullProgram,
      isLiteral text = true → (Numeral.bits? text).isSome = true := by
    decide +kernel
  have hwords : wordsOf fullProgram = 127 := by decide +kernel
  have hmore : wordsOf (.move "0" "z" :: fullProgram) = 129 := by decide +kernel
  have hcells : (textsOf fullProgram).toFinset.card = 5 := by decide +kernel
  refine ⟨?_, ?_, ?_⟩
  · apply (emit_ok_iff fullProgram true).1.mpr
    refine ⟨by decide +kernel, ?_, ?_, by omega, by omega⟩
    · exact fun label hgoal => hgoals label (mem_goalsOf_iff.mpr hgoal)
    · exact fun text htext hliteral =>
        Numeral.bits?_isSome_iff.mp (hnumerals text htext hliteral)
  · intro h
    obtain ⟨-, -, -, hroom, -⟩ := (emit_ok_iff _ true).1.mp h
    omega
  · intro memory h
    obtain ⟨hlength, hsize⟩ := (emit_ok_iff fullProgram false).2 memory h
    exact ⟨by omega, by omega⟩

end AtomCompiler
