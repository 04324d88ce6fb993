import AtomCompiler.Proofs.Images
import Mathlib.Algebra.Order.Field.Power
import Mathlib.Algebra.Order.Field.Rat
import Mathlib.Tactic.Positivity

/-!
# What the bytes of a cell tell

A cell whose value is a whole number of thirty-two bits holds that number in its
upper half, and any other cell holds the bits of its double.  Nothing in the image
tells which of the two it is, so the bits of a double whose lower half is zero can
also be those of a whole number.  Here it is said when that happens, and that nothing
else is lost but the sign of zero.

* `Binary64.rational?`, `Binary64.SameNumber` — numbers apart from their bits;
* `Overlaps` — a whole number and a double with the same bytes;
* `cellWord_eq_iff` — when two cells have the same bytes;
* `image_tells_numbers` — what the image tells of the data.
-/

namespace AtomCompiler

/-! ## Numbers -/

namespace Binary64

/-- The number that a finite double is. -/
def rational? : Binary64 → Option ℚ
  | finite negative significand exponent =>
    let magnitude := (significand : ℚ) * 2 ^ exponent
    some (if negative then -magnitude else magnitude)
  | infinite _ => none
  | undefined => none

/-- Two doubles are the same number.  Both zeros are the same, and so is all that is
undefined. -/
def SameNumber (double other : Binary64) : Prop :=
  double = other ∨ ∃ number, double.rational? = some number ∧ other.rational? = some number

/-- Standing for the same number goes both ways. -/
theorem SameNumber.symm {double other : Binary64} (h : double.SameNumber other) :
    other.SameNumber double := by
  cases h with
  | inl heq => exact .inl heq.symm
  | inr hnumber =>
      obtain ⟨number, hdouble, hother⟩ := hnumber
      exact .inr ⟨number, hother, hdouble⟩

/-- The whole number that a significand with an exponent makes, if it makes one. -/
def magnitude? (significand : Nat) (exponent : Int) : Option Nat :=
  if 0 ≤ exponent then some (significand * 2 ^ exponent.natAbs)
  else if significand % 2 ^ exponent.natAbs = 0 then some (significand / 2 ^ exponent.natAbs)
  else none

/-- A finite number is an integer if its magnitude is one, and the sign is put back. -/
theorem integer?_finite (negative : Bool) (significand : Nat) (exponent : Int) :
    (finite negative significand exponent).integer? =
      (magnitude? significand exponent).map fun magnitude : Nat =>
        if negative then -(magnitude : Int) else magnitude := by
  simp only [integer?, magnitude?]
  by_cases hexponent : 0 ≤ exponent
  · simp [hexponent]
  · by_cases hmod : significand % 2 ^ exponent.natAbs = 0 <;> simp [hexponent, hmod]

/-- A significand shifted to the left is a whole number, and one shifted to the right
is if no bit that is set goes. -/
theorem magnitude?_eq_some_iff {significand magnitude : Nat} {exponent : Int} :
    magnitude? significand exponent = some magnitude ↔
      (significand : ℚ) * 2 ^ exponent = magnitude := by
  unfold magnitude?
  by_cases hexponent : 0 ≤ exponent
  · obtain ⟨shift, rfl⟩ := Int.eq_ofNat_of_zero_le hexponent
    rw [if_pos hexponent, zpow_natCast, Option.some.injEq, Int.natAbs_natCast]
    exact_mod_cast Iff.rfl
  · obtain ⟨shift, rfl⟩ : ∃ shift : Nat, exponent = -(shift : Int) :=
      ⟨exponent.natAbs, by omega⟩
    have hpos : 0 < 2 ^ shift := Nat.two_pow_pos shift
    have hcast : (significand : ℚ) * 2 ^ (-(shift : Int)) = magnitude ↔
        significand = magnitude * 2 ^ shift := by
      rw [zpow_neg, zpow_natCast, ← div_eq_mul_inv, div_eq_iff (by positivity)]
      exact_mod_cast Iff.rfl
    rw [if_neg hexponent, hcast, Int.natAbs_neg, Int.natAbs_natCast]
    constructor
    · intro h
      split at h
      · next hmod =>
          obtain rfl := Option.some.inj h
          exact (Nat.div_mul_cancel (Nat.dvd_of_mod_eq_zero hmod)).symm
      · cases h
    · intro h
      rw [h, if_pos (Nat.mul_mod_left _ _), Nat.mul_div_cancel _ hpos]

/-- **The whole number that a double is equal to is the number that it is.** -/
theorem integer?_eq_some_iff {double : Binary64} {n : Int} :
    double.integer? = some n ↔ double.rational? = some (n : ℚ) := by
  cases double with
  | infinite => simp [integer?, rational?]
  | undefined => simp [integer?, rational?]
  | finite negative significand exponent =>
      simp only [integer?_finite, rational?, Option.map_eq_some_iff, magnitude?_eq_some_iff,
        Option.some.injEq]
      -- the magnitude is not negative, so its sign is the sign bit
      have hnonneg : 0 ≤ (significand : ℚ) * 2 ^ exponent := by positivity
      generalize (significand : ℚ) * 2 ^ exponent = magnitude at hnonneg
      cases negative with
      | false =>
          simp only [Bool.false_eq_true, if_false]
          constructor
          · intro h
            obtain ⟨whole, rfl, rfl⟩ := h
            rfl
          · intro h
            subst h
            have hn : 0 ≤ n := by exact_mod_cast hnonneg
            obtain ⟨whole, rfl⟩ := Int.eq_ofNat_of_zero_le hn
            exact ⟨whole, rfl, rfl⟩
      | true =>
          simp only [if_true]
          constructor
          · intro h
            obtain ⟨whole, rfl, rfl⟩ := h
            push_cast
            rfl
          · intro h
            have hn : 0 ≤ -n := by
              have hcast : ((-n : Int) : ℚ) = magnitude := by
                rw [Int.cast_neg, ← h, neg_neg]
              rw [← hcast] at hnonneg
              exact_mod_cast hnonneg
            obtain ⟨whole, hwhole⟩ := Int.eq_ofNat_of_zero_le hn
            obtain rfl : n = -(whole : Int) := by omega
            refine ⟨whole, ?_, rfl⟩
            push_cast at h
            exact neg_inj.mp h

/-- Doubles that are the same number are the same whole number, or both are none. -/
theorem SameNumber.integer?_eq {double other : Binary64} (h : double.SameNumber other) :
    double.integer? = other.integer? := by
  cases h with
  | inl heq => rw [heq]
  | inr hnumber =>
      obtain ⟨number, hdouble, hother⟩ := hnumber
      refine Option.ext fun n => ?_
      rw [integer?_eq_some_iff, integer?_eq_some_iff, hdouble, hother]

/-- Two numbers that are the same integer are the same number. -/
theorem SameNumber.of_integer? {double other : Binary64} {n : Int} (hdouble : double.integer? = some n)
    (hother : other.integer? = some n) : double.SameNumber other :=
  .inr ⟨n, integer?_eq_some_iff.mp hdouble, integer?_eq_some_iff.mp hother⟩

end Binary64

/-! ## Cells -/

/-- The whole number of thirty-two bits that a cell's value is, if it is one. -/
def short? (bits : UInt64) : Option Int :=
  (Binary64.ofBits bits).integer?.filter fun n => -0x80000000 ≤ n ∧ n < 0x80000000

/-- The bytes of a cell with a whole number, which is in its upper half. -/
def upperHalf (n : Int) : Nat :=
  (n % 0x100000000).toNat * 0x100000000

/-- The first cell holds a whole number of thirty-two bits and the second does not, and
yet the bits of the second are those of the whole number in the upper half. -/
def Overlaps (bits other : UInt64) : Prop :=
  ∃ n, short? bits = some n ∧ short? other = none ∧ other.toNat = upperHalf n

/-- A number is short if it is an integer that fits into half a cell. -/
theorem short?_eq_some_iff {bits : UInt64} {n : Int} :
    short? bits = some n ↔
      (Binary64.ofBits bits).integer? = some n ∧ -0x80000000 ≤ n ∧ n < 0x80000000 := by
  simp [short?, Option.filter_eq_some_iff]

/-- A cell holds a short number in its upper half, and any other as its bits. -/
theorem cellWord_eq (bits : UInt64) :
    cellWord bits = match short? bits with
      | some n => upperHalf n
      | none => bits.toNat := by
  unfold cellWord short? upperHalf
  cases (Binary64.ofBits bits).integer? with
  | none => rfl
  | some n => by_cases hshort : -0x80000000 ≤ n ∧ n < 0x80000000 <;> simp [Option.filter, hshort]

theorem cellWord_of_some {bits : UInt64} {n : Int} (h : short? bits = some n) :
    cellWord bits = upperHalf n := by
  rw [cellWord_eq, h]

theorem cellWord_of_none {bits : UInt64} (h : short? bits = none) : cellWord bits = bits.toNat := by
  rw [cellWord_eq, h]

/-- An upper half fits into a cell. -/
theorem upperHalf_lt (n : Int) : upperHalf n < 256 ^ cellBytes := by
  have hlt : (n % 0x100000000).toNat < 0x100000000 := by omega
  calc upperHalf n < 0x100000000 * 0x100000000 := Nat.mul_lt_mul_of_pos_right hlt (by decide)
    _ = 256 ^ cellBytes := rfl

/-- Whatever a cell holds fits into it. -/
theorem cellWord_lt (bits : UInt64) : cellWord bits < 256 ^ cellBytes := by
  rw [cellWord_eq]
  split
  · exact upperHalf_lt _
  · exact bits.toNat_lt

/-- A whole number of thirty-two bits is told by its two's complement. -/
theorem upperHalf_inj {bits other : UInt64} {n m : Int} (hbits : short? bits = some n)
    (hother : short? other = some m) : upperHalf n = upperHalf m ↔ n = m := by
  have hn := (short?_eq_some_iff.mp hbits).2
  have hm := (short?_eq_some_iff.mp hother).2
  simp only [upperHalf]
  omega

/-- **When two cells have the same bytes:** they have the same bits or the same whole
number, or one is a whole number that looks like the other. -/
theorem cellWord_eq_iff {bits other : UInt64} :
    cellWord bits = cellWord other ↔
      bits = other ∨ (∃ n, short? bits = some n ∧ short? other = some n) ∨
        Overlaps bits other ∨ Overlaps other bits := by
  cases hbits : short? bits with
  | some n =>
      cases hother : short? other with
      | some m =>
          rw [cellWord_of_some hbits, cellWord_of_some hother, upperHalf_inj hbits hother]
          grind [Overlaps]
      | none =>
          rw [cellWord_of_some hbits, cellWord_of_none hother]
          grind [Overlaps]
  | none =>
      cases hother : short? other with
      | some m =>
          rw [cellWord_of_none hbits, cellWord_of_some hother]
          grind [Overlaps]
      | none =>
          rw [cellWord_of_none hbits, cellWord_of_none hother, UInt64.toNat_inj]
          grind [Overlaps]

/-- The bytes of two cells are the same exactly if the cells hold the same word. -/
theorem bigEndian_cellWord_inj {bits other : UInt64} :
    bigEndian cellBytes (cellWord bits) = bigEndian cellBytes (cellWord other) ↔
      cellWord bits = cellWord other := by
  constructor
  · intro h
    have hread := congrArg ofBigEndian h
    rwa [ofBigEndian_of_lt (cellWord_lt bits), ofBigEndian_of_lt (cellWord_lt other)] at hread
  · intro h
    rw [h]

/-- What looks like a whole number is another number. -/
theorem Overlaps.not_sameNumber {bits other : UInt64} (h : Overlaps bits other) :
    ¬(Binary64.ofBits bits).SameNumber (Binary64.ofBits other) := by
  obtain ⟨n, hbits, hother, -⟩ := h
  intro hsame
  have hshort : short? bits = short? other := by
    rw [short?, hsame.integer?_eq, short?]
  rw [hshort, hother] at hbits
  cases hbits

/-- Cells with the same bytes hold the same number, or one looks like the other. -/
theorem sameNumber_or_overlaps {bits other : UInt64} (h : cellWord bits = cellWord other) :
    (Binary64.ofBits bits).SameNumber (Binary64.ofBits other) ∨
      Overlaps bits other ∨ Overlaps other bits := by
  obtain heq | hwhole | hoverlaps := cellWord_eq_iff.mp h
  · exact .inl (.inl (congrArg _ heq))
  · obtain ⟨n, hbits, hother⟩ := hwhole
    exact .inl (.of_integer? (short?_eq_some_iff.mp hbits).1 (short?_eq_some_iff.mp hother).1)
  · exact .inr hoverlaps

/-- **Different numbers have the same bytes exactly if one looks like the other.** -/
theorem bytes_eq_and_differ_iff {bits other : UInt64} :
    (bigEndian cellBytes (cellWord bits) = bigEndian cellBytes (cellWord other) ∧
      ¬(Binary64.ofBits bits).SameNumber (Binary64.ofBits other)) ↔
      Overlaps bits other ∨ Overlaps other bits := by
  rw [bigEndian_cellWord_inj]
  constructor
  · intro h
    exact (sameNumber_or_overlaps h.1).resolve_left h.2
  · intro h
    refine ⟨cellWord_eq_iff.mpr (.inr (.inr h)), fun hsame => ?_⟩
    cases h with
    | inl hoverlaps => exact hoverlaps.not_sameNumber hsame
    | inr hoverlaps => exact hoverlaps.not_sameNumber hsame.symm

/-! ## Images -/

/-- Memories with the same image have equally many cells. -/
theorem size_of_image_eq {memory other : Memory} (hmemory : memory.Reachable)
    (hother : other.Reachable) (himage : memory.image = other.image) :
    memory.cells.size = other.cells.size := by
  have hlength := congrArg List.length himage
  rw [Memory.length_image hmemory.indexed.words, Memory.length_image hother.indexed.words] at hlength
  simp only [cellBytes] at hlength
  omega

/-- Memories with the same image have the same bytes in each cell. -/
theorem cellWord_of_image_eq {memory other : Memory} (hmemory : memory.Reachable)
    (hother : other.Reachable) (himage : memory.image = other.image) {slot : Nat}
    {cell twin : Cell} (hcell : memory.cells[slot]? = some cell)
    (htwin : other.cells[slot]? = some twin) : cellWord cell.bits = cellWord twin.bits := by
  have hbytes := Memory.take_drop_cell hmemory.indexed.words hcell
  rw [himage, Memory.take_drop_cell hother.indexed.words htwin] at hbytes
  exact (bigEndian_cellWord_inj.mp hbytes).symm

/-- **The image tells the numbers of the data, up to those that look like others.**  If
calls have filled two memories so that their images are the same, they have equally many
cells, and cells in the same slot hold the same number unless one holds a whole number
that looks like the other.  Those are the only different numbers with the same bytes. -/
theorem image_tells_numbers :
    (∀ memory other : Memory, memory.Reachable → other.Reachable → memory.image = other.image →
      memory.cells.size = other.cells.size ∧
      ∀ (slot : Nat) (cell twin : Cell), memory.cells[slot]? = some cell →
        other.cells[slot]? = some twin →
        (Binary64.ofBits cell.bits).SameNumber (Binary64.ofBits twin.bits) ∨
          Overlaps cell.bits twin.bits ∨ Overlaps twin.bits cell.bits) ∧
    ∀ bits other : UInt64,
      (bigEndian cellBytes (cellWord bits) = bigEndian cellBytes (cellWord other) ∧
        ¬(Binary64.ofBits bits).SameNumber (Binary64.ofBits other)) ↔
        Overlaps bits other ∨ Overlaps other bits := by
  refine ⟨?_, fun bits other => bytes_eq_and_differ_iff⟩
  intro memory other hmemory hother himage
  refine ⟨size_of_image_eq hmemory hother himage, ?_⟩
  intro slot cell twin hcell htwin
  exact sameNumber_or_overlaps (cellWord_of_image_eq hmemory hother himage hcell htwin)

/-- The image does not tell `2.5` from `1074003968`. -/
theorem image_blurs_kinds :
    (Memory.after {} [.allocateLiteral "2.5"]).image =
        (Memory.after {} [.allocateLiteral "1074003968"]).image ∧
      (Memory.after {} [.allocateLiteral "2.5"]).cells[0]? = some ⟨"2.5", 0x4004000000000000⟩ ∧
      (Memory.after {} [.allocateLiteral "1074003968"]).cells[0]? =
        some ⟨"1074003968", 0x41d0010000000000⟩ ∧
      ¬(Binary64.ofBits 0x4004000000000000).SameNumber (Binary64.ofBits 0x41d0010000000000) := by
  refine ⟨by decide +kernel, by decide +kernel, by decide +kernel, ?_⟩
  intro hsame
  have hinteger : (Binary64.ofBits 0x4004000000000000).integer? ≠
      (Binary64.ofBits 0x41d0010000000000).integer? := by
    decide +kernel
  exact hinteger hsame.integer?_eq

end AtomCompiler
