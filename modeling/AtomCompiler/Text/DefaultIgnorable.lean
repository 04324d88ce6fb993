/-!
# Characters that leave no mark

Soft hyphens, joiners, variation selectors and the Hangul fillers are drawn as
nothing at all unless a renderer treats them specially.  Most of them are format
characters or combining marks; the Hangul fillers are letters, and only this
property tells them from the letters that can be seen.  The table lists the code
points with the `Default_Ignorable_Code_Point` property as closed ranges in
ascending order.
-/

namespace AtomCompiler.Text

/-- The ranges of code points with the `Default_Ignorable_Code_Point`
property. -/
def defaultIgnorableRanges : List (Nat × Nat) :=
  [(0xad, 0xad), (0x34f, 0x34f), (0x61c, 0x61c), (0x115f, 0x1160), (0x17b4, 0x17b5),
    (0x180b, 0x180f), (0x200b, 0x200f), (0x202a, 0x202e), (0x2060, 0x206f), (0x3164, 0x3164),
    (0xfe00, 0xfe0f), (0xfeff, 0xfeff), (0xffa0, 0xffa0), (0xfff0, 0xfff8), (0x1bca0, 0x1bca3),
    (0x1d173, 0x1d17a), (0xe0000, 0xe0fff)]

/-- A character that is drawn as nothing by default. -/
def isDefaultIgnorable (c : Char) : Bool :=
  defaultIgnorableRanges.any fun range => range.1 ≤ c.toNat && c.toNat ≤ range.2

end AtomCompiler.Text
