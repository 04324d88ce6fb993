/-!
# Columns

Text set in columns of a least width.  Widths count characters.
-/

namespace AtomCompiler.Text

/-- The text, followed by as many spaces as it lacks to the given width. -/
def alignLeft (width : Nat) (text : String) : String :=
  text ++ "".pushn ' ' (width - text.length)

/-- The text, preceded by as many spaces as it lacks to the given width. -/
def alignRight (width : Nat) (text : String) : String :=
  "".pushn ' ' (width - text.length) ++ text

end AtomCompiler.Text
