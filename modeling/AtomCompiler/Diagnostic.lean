import AtomCompiler.Source
import AtomCompiler.Text.Columns

/-!
# Diagnostics

Errors shown on an excerpt of the text they were found in: the place, the lines
from the first to the last character, and a row of carets under the columns.
The carets run from the smaller of the two columns to the larger, also where the
ends are on different lines.
-/

namespace AtomCompiler

/-- A message about a place in a text. -/
structure Diagnostic where
  message : String
  span : Span
  deriving DecidableEq, Repr

/-- Messages of one kind about one text. -/
structure Diagnostics where
  kind : String := "error"
  entries : List Diagnostic
  deriving DecidableEq, Repr

namespace Diagnostic

/-- The columns of a span, the smaller and the larger. -/
def columns (span : Span) : Nat × Nat :=
  (min span.first.column span.last.column, max span.first.column span.last.column)

/-- The width of the column of line numbers. -/
def gutter (span : Span) : Nat :=
  (toString span.last.line).length

/-- The margin of an excerpt: a line number, or blanks of the same width, and a
bar. -/
def margin (span : Span) (number : String) : String :=
  Text.alignRight (gutter span) number ++ " |"

/-- The line of the text with the given number; a line beyond the text is shown
empty. -/
def numberedLine (lines : List String) (span : Span) (number : Nat) : String :=
  let line := (lines[number - 1]?).getD ""
  margin span (toString number) ++ " " ++ line ++ "\n"

/-- The row of carets under the columns of a span. -/
def caretRow (span : Span) : String :=
  let (left, right) := columns span
  margin span "" ++ " " ++ "".pushn ' ' (left - 1) ++ "".pushn '^' (right - left + 1) ++ "\n"

/-- The place of a span, the lines it covers and its carets. -/
def excerpt (name : String) (lines : List String) (span : Span) : String :=
  let numbers := List.range' span.first.line (span.last.line + 1 - span.first.line)
  s!" --> {name}:{span.describe}\n" ++ margin span "" ++ "\n"
    ++ String.join (numbers.map (numberedLine lines span)) ++ caretRow span ++ "\n"

end Diagnostic

namespace Diagnostics

/-- The closing line, which counts the errors. -/
def summary (diagnostics : Diagnostics) : String :=
  match diagnostics.entries.length with
  | 1 => "Build failed with 1 error\n"
  | count => s!"Build failed with {count} errors\n"

/-- All messages with their excerpts, and the count of errors. -/
def render (diagnostics : Diagnostics) (source : Source) : String :=
  if diagnostics.entries = [] then "No errors were reported\n"
  else
    let lines := source.lines
    let shown := diagnostics.entries.map fun entry =>
      s!"{diagnostics.kind}: {entry.message}\n" ++ Diagnostic.excerpt source.name lines entry.span
    String.join shown ++ diagnostics.summary

end Diagnostics

end AtomCompiler
