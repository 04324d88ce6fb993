import AtomCompiler.Number.Binary64

/-!
# Doubles in decimal

A double is shown by the fewest decimal digits that read back as that double,
and by the nearest such digits where there is a choice.  The numbers that read
back as `m * 2 ^ q` form an interval around it, reaching half way to the next
double on either side; both ends belong to it exactly when `m` is even.  For one
digit, two digits and so on the two neighbours of the value on that decimal grid
are tried, in exact arithmetic; seventeen digits always suffice.

The digits are set positionally, never with an exponent.
-/

namespace AtomCompiler

/-- The number `digits * 10 ^ exponent`. -/
structure Decimal where
  digits : Nat
  exponent : Int
  deriving DecidableEq, Repr

/-- The numbers that read back as one double, as quotients over a common
denominator. -/
structure ReadBack where
  low : Nat
  value : Nat
  high : Nat
  denominator : Nat
  endsIncluded : Bool

namespace ReadBack

/-- The interval around `significand * 2 ^ exponent`.

The next double below is only half as far away where the significand is the
least with its exponent, except at the least exponent of all. -/
def ofDouble (significand : Nat) (exponent : Int) : ReadBack :=
  let scale := Nat.pow 2 (exponent - 2).natAbs
  let (up, down) := if 0 ≤ exponent - 2 then (scale, 1) else (1, scale)
  let gapBelow :=
    if significand = Binary64.impliedBit ∧ exponent ≠ Binary64.leastExponent then 1 else 2
  { low := (4 * significand - gapBelow) * up
    value := 4 * significand * up
    high := (4 * significand + 2) * up
    denominator := down
    endsIncluded := significand % 2 = 0 }

/-- Whether `n * unit`, over the common denominator, reads back as the double. -/
def contains (interval : ReadBack) (n : Nat) : Bool :=
  if interval.endsIncluded then interval.low ≤ n && n ≤ interval.high
  else interval.low < n && n < interval.high

/-- The same interval, with every bound multiplied by a power of ten. -/
def scale (interval : ReadBack) (power : Nat) : ReadBack :=
  { interval with
    low := interval.low * power
    value := interval.value * power
    high := interval.high * power }

/-- The place of the first digit: the value lies below ten to that power, and
not below a tenth of it.

The value is shifted far enough for its first digit to stand before the point;
the smallest double has its first digit 324 places behind it. -/
def firstPlace (interval : ReadBack) : Int :=
  (Nat.toDigits 10 (interval.value * Nat.pow 10 324 / interval.denominator)).length - 324

/-- The nearest number with the given count of digits that reads back, if there
is one; of two equally near the larger. -/
def nearest? (interval : ReadBack) (count : Nat) : Option Decimal :=
  let exponent := interval.firstPlace - count
  let power := Nat.pow 10 exponent.natAbs
  let scaled := if 0 ≤ exponent then interval else interval.scale power
  let unit := if 0 ≤ exponent then interval.denominator * power else interval.denominator
  let below := scaled.value / unit
  let above := below + 1
  let fromBelow := scaled.value - below * unit
  let fromAbove := above * unit - scaled.value
  let useBelow := scaled.contains (below * unit)
  let useAbove := scaled.contains (above * unit)
  if useAbove && (!useBelow || fromAbove ≤ fromBelow) then
    some (if above = Nat.pow 10 count then ⟨1, exponent + count⟩ else ⟨above, exponent⟩)
  else if useBelow then some ⟨below, exponent⟩
  else none

end ReadBack

namespace Decimal

/-- The shortest decimal that reads back as the double `significand * 2 ^
exponent`. -/
def shortest (significand : Nat) (exponent : Int) : Decimal :=
  let interval := ReadBack.ofDouble significand exponent
  ((List.range' 1 17).findSome? interval.nearest?).getD ⟨0, 0⟩

/-- A decimal in positional digits: a point only where digits follow it, a zero
before a leading point. -/
def positional (decimal : Decimal) : String :=
  let digits := Nat.toDigits 10 decimal.digits
  let places := decimal.exponent.natAbs
  let whole := digits.length - places
  if 0 ≤ decimal.exponent then String.ofList (digits ++ List.replicate places '0')
  else if places < digits.length then
    String.ofList (digits.take whole ++ '.' :: digits.drop whole)
  else String.ofList ('0' :: '.' :: List.replicate (places - digits.length) '0' ++ digits)

end Decimal

namespace Binary64

/-- A double as it is shown: the shortest digits with the sign in front, also
for zero and infinity. -/
def describe : Binary64 → String
  | finite negative significand exponent =>
    let magnitude :=
      if significand = 0 then "0" else (Decimal.shortest significand exponent).positional
    if negative then "-" ++ magnitude else magnitude
  | infinite negative => if negative then "-inf" else "inf"
  | undefined => "NaN"

end Binary64

end AtomCompiler
