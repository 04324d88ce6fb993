/-!
# Blanks

The blanks that surround a line of an atom listing are the characters with the
`White_Space` property, twenty-five in all.  (The blanks between tokens of a
program are fewer; they belong to the scanner.)
-/

namespace AtomCompiler.Text

/-- The ranges of code points with the `White_Space` property. -/
def blankRanges : List (Nat × Nat) :=
  [(0x09, 0x0d), (0x20, 0x20), (0x85, 0x85), (0xa0, 0xa0), (0x1680, 0x1680), (0x2000, 0x200a),
    (0x2028, 0x2029), (0x202f, 0x202f), (0x205f, 0x205f), (0x3000, 0x3000)]

/-- A character with the `White_Space` property. -/
def isBlank (c : Char) : Bool :=
  blankRanges.any fun range => range.1 ≤ c.toNat && c.toNat ≤ range.2

/-- A text without its trailing blanks. -/
def trimRight (text : List Char) : List Char :=
  (text.reverse.dropWhile isBlank).reverse

/-- A text without trailing blanks has none to lose. -/
theorem trimRight_concat {text : List Char} {c : Char} (h : isBlank c = false) :
    trimRight (text ++ [c]) = text ++ [c] := by
  simp [trimRight, h]

end AtomCompiler.Text
