/-!
# Doubles taken apart

The sixty-four bits of a double are a sign, eleven bits of exponent and
fifty-two of fraction.  A finite double is exactly `significand * 2 ^ exponent`,
with its sign; everything here is arithmetic on those whole numbers.
-/

namespace AtomCompiler

/-- What the bits of a double stand for. -/
inductive Binary64 where
  | finite (negative : Bool) (significand : Nat) (exponent : Int)
  | infinite (negative : Bool)
  | undefined
  deriving DecidableEq, Repr

namespace Binary64

/-- The fraction's weight where the leading bit is implied. -/
def impliedBit : Nat := Nat.pow 2 52

/-- How many exponents eleven bits can tell apart. -/
def exponents : Nat := Nat.pow 2 11

/-- The least exponent of a double, that of the subnormal numbers. -/
def leastExponent : Int := -1074

/-- Takes a double apart. -/
def ofBits (bits : UInt64) : Binary64 :=
  let negative := exponents * impliedBit ≤ bits.toNat
  let biased : Nat := bits.toNat / impliedBit % exponents
  let fraction : Nat := bits.toNat % impliedBit
  if biased = exponents - 1 then
    if fraction = 0 then infinite negative else undefined
  else if biased = 0 then finite negative fraction leastExponent
  else finite negative (impliedBit + fraction) ((biased : Int) + leastExponent - 1)

/-- The whole number a double is equal to, if there is one; both zeros are the
number zero. -/
def integer? : Binary64 → Option Int
  | finite negative significand exponent =>
    let scale := Nat.pow 2 exponent.natAbs
    let magnitude? : Option Nat :=
      if 0 ≤ exponent then some (significand * scale)
      else if significand % scale = 0 then some (significand / scale)
      else none
    magnitude?.map fun magnitude => if negative then -(magnitude : Int) else magnitude
  | infinite _ => none
  | undefined => none

end Binary64

end AtomCompiler
