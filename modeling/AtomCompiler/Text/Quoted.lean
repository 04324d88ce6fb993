import AtomCompiler.Text.DefaultIgnorable
import AtomCompiler.Text.GraphemeExtend
import AtomCompiler.Text.Printable

/-!
# Characters in quotes

How a single character is shown in a message: between apostrophes, with the
usual escapes for NUL, tab, carriage return, newline, apostrophe and backslash,
and by its code point in hexadecimal when it has no shape of its own.
-/

namespace AtomCompiler.Text

/-- A character with a shape of its own: it can be shown, is not drawn onto the
character before it, and is not drawn as nothing. -/
def hasOwnShape (c : Char) : Bool :=
  isPrintable c && !isCombining c && !isDefaultIgnorable c

/-- A character as it stands between the apostrophes. -/
def escaped (c : Char) : String :=
  if c = '\x00' then "\\0"
  else if c = '\t' then "\\t"
  else if c = '\r' then "\\r"
  else if c = '\n' then "\\n"
  else if c = '\'' then "\\'"
  else if c = '\\' then "\\\\"
  else if hasOwnShape c then c.toString
  else "\\u\x7b" ++ String.ofList (Nat.toDigits 16 c.toNat) ++ "\x7d"

/-- A character in apostrophes. -/
def quoted (c : Char) : String :=
  "'" ++ escaped c ++ "'"

end AtomCompiler.Text
