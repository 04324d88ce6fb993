/-!
# Whole numbers in digits

Writing a number in a given base with a least number of digits, and reading a
row of decimal digits.
-/

namespace AtomCompiler.Text

/-- A number in the given base, with leading zeros up to the given number of
digits. -/
def digits (base width n : Nat) : String :=
  let shown := Nat.toDigits base n
  String.ofList (List.replicate (width - shown.length) '0' ++ shown)

/-- The number that a row of decimal digits stands for. -/
def decimalValue (row : List Char) : Nat :=
  row.foldl (fun value digit => 10 * value + (digit.toNat - '0'.toNat)) 0

/-- The number that a text of one or more decimal digits stands for. -/
def readDecimal? (text : List Char) : Option Nat :=
  if text ≠ [] ∧ text.all Char.isDigit then some (decimalValue text) else none

end AtomCompiler.Text
