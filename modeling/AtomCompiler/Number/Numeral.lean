import AtomCompiler.Text.Digits

/-!
# Numerals

The written form of a number, and the double it stands for.  A numeral is an
optional sign and then either decimal digits, with at most one point among or
beside them and at least one digit, and an optional exponent with its own sign;
or one of the words `inf`, `infinity` and `nan`, in any case.  Nothing else, so
neither blanks nor digit separators.

The double is the one nearest to the written number, the even one of two equally
near; a number beyond the largest double is infinite.
-/

namespace AtomCompiler

/-- A written number without its sign. -/
inductive Magnitude where
  /-- The number `mantissa * 10 ^ exponent`. -/
  | decimal (mantissa : Nat) (exponent : Int)
  | infinite
  | undefined
  deriving DecidableEq, Repr

/-- A written number. -/
structure Numeral where
  negative : Bool
  magnitude : Magnitude
  deriving DecidableEq, Repr

/-- A leading sign, and what follows it. -/
def splitSign : List Char → Bool × List Char
  | '-' :: rest => (true, rest)
  | '+' :: rest => (false, rest)
  | rest => (false, rest)

namespace Magnitude

/-- The exponent part of a numeral; an empty text is the exponent zero. -/
def readExponent? : List Char → Option Int
  | [] => some 0
  | mark :: rest =>
    let (negative, digits) := splitSign rest
    if mark = 'e' ∨ mark = 'E' then
      (Text.readDecimal? digits).map fun size => if negative then -(size : Int) else size
    else none

/-- A row of digits with an optional point and an optional exponent. -/
def readDecimal? (text : List Char) : Option Magnitude :=
  let whole := text.takeWhile Char.isDigit
  let afterWhole := text.dropWhile Char.isDigit
  let pointed := afterWhole.head? = some '.'
  let fraction := if pointed then afterWhole.tail.takeWhile Char.isDigit else []
  let rest := if pointed then afterWhole.tail.dropWhile Char.isDigit else afterWhole
  if whole ++ fraction = [] then none
  else (readExponent? rest).map fun exponent =>
    decimal (Text.decimalValue (whole ++ fraction)) (exponent - fraction.length)

/-- An unsigned numeral. -/
def read? (text : List Char) : Option Magnitude :=
  let word := String.ofList (text.map Char.toLower)
  if word = "inf" ∨ word = "infinity" then some infinite
  else if word = "nan" then some undefined
  else readDecimal? text

/-- The bits of the double nearest to an unsigned number.

A decimal with its first digit far above or far below the range of doubles is
settled by the place of that digit alone, so that a huge exponent costs
nothing. -/
def toBits : Magnitude → UInt64
  | decimal mantissa exponent =>
    let place := ((Nat.toDigits 10 mantissa).length : Int) + exponent
    if mantissa = 0 ∨ place < -330 then 0
    else if 310 < place then 0x7ff0000000000000
    else (Float.ofScientific mantissa (exponent < 0) exponent.natAbs).toBits
  | infinite => 0x7ff0000000000000
  | undefined => 0x7ff8000000000000

end Magnitude

namespace Numeral

/-- Reads a numeral, the whole text or nothing. -/
def read? (text : String) : Option Numeral :=
  let (negative, rest) := splitSign text.toList
  (Magnitude.read? rest).map (Numeral.mk negative)

/-- The bits of the double that a numeral stands for; the sign is kept even on
zero. -/
def toBits (numeral : Numeral) : UInt64 :=
  if numeral.negative then numeral.magnitude.toBits ||| 0x8000000000000000
  else numeral.magnitude.toBits

/-- The bits of the double that a text stands for, if the text is a numeral. -/
def bits? (text : String) : Option UInt64 :=
  (read? text).map toBits

/-- The double that a text stands for, if the text is a numeral. -/
def value? (text : String) : Option Float :=
  (bits? text).map Float.ofBits

end Numeral

end AtomCompiler
