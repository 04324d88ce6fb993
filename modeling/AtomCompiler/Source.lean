import AtomCompiler.Text.Lines

/-!
# Places in a program text

A `Position` is a line and a column, both counted from one; a column counts
characters, whatever their width, and a tab is one of them.  A `Span` runs from
its first character to its last, both included.  A `Source` is a named text, and
a `Located` value remembers the span it came from.
-/

namespace AtomCompiler

/-- A place in a text. -/
structure Position where
  line : Nat := 1
  column : Nat := 1
  deriving DecidableEq, Repr

namespace Position

/-- The place right after a character that stands at the given place. -/
def after (position : Position) (c : Char) : Position :=
  if c = '\n' then ⟨position.line + 1, 1⟩ else ⟨position.line, position.column + 1⟩

/-- The place right after a text that begins at the given place. -/
def afterText (position : Position) (text : List Char) : Position :=
  text.foldl after position

/-- A place as it is shown, `line:column`. -/
def describe (position : Position) : String :=
  s!"{position.line}:{position.column}"

@[simp] theorem afterText_nil (position : Position) : position.afterText [] = position := rfl

@[simp] theorem afterText_cons (position : Position) (c : Char) (text : List Char) :
    position.afterText (c :: text) = (position.after c).afterText text := rfl

/-- A position moves over a text piece by piece. -/
theorem afterText_append (position : Position) (first second : List Char) :
    position.afterText (first ++ second) = (position.afterText first).afterText second :=
  List.foldl_append

/-- Within a line only the column moves, once per character. -/
theorem afterText_of_no_newline {text : List Char} (h : ∀ c ∈ text, c ≠ '\n')
    (position : Position) :
    position.afterText text = ⟨position.line, position.column + text.length⟩ := by
  induction text generalizing position with
  | nil => rfl
  | cons c text ih =>
      have hc : c ≠ '\n' := h c (by simp)
      rw [afterText_cons, ih fun d hd => h d (by simp [hd])]
      simp [after, hc]
      omega

end Position

/-- The characters from a first place to a last one, both included. -/
structure Span where
  first : Position
  last : Position
  deriving DecidableEq, Repr

namespace Span

/-- The span of the first character of a text. -/
def start : Span := ⟨{}, {}⟩

/-- The span of a text that begins at the given place. -/
def ofText (position : Position) (text : List Char) : Span :=
  ⟨position, position.afterText text.dropLast⟩

/-- A span as it is shown: one place, or both ends in brackets. -/
def describe (span : Span) : String :=
  if span.first = span.last then span.first.describe
  else s!"[{span.first.describe}-{span.last.describe}]"

end Span

/-- A value that came from a place in a text. -/
structure Located (α : Type) where
  value : α
  span : Span
  deriving DecidableEq, Repr

/-- A named text. -/
structure Source where
  name : String
  text : String
  deriving DecidableEq, Repr

namespace Source

/-- The lines of the text, first to last. -/
def lines (source : Source) : List String :=
  (Text.lines source.text.toList).map String.ofList

/-- The line with the given number, counted from one. -/
def line? (source : Source) (number : Nat) : Option String :=
  match number with
  | 0 => none
  | index + 1 => source.lines[index]?

/-- A span of the text together with the text's name. -/
def describe (source : Source) (span : Span) : String :=
  s!"{source.name}:{span.describe}"

end Source

end AtomCompiler
