/-!
# Lines of a text

A line ends at a newline or at the end of the text.  The newline does not belong
to the line, and neither does one carriage return right before it; a carriage
return anywhere else does.  After a final newline there is no further, empty
line.

* `lines_nil`, `lines_append_newline` describe the splitting from the left.
-/

namespace AtomCompiler.Text

/-- The lines of a text, first to last. -/
def lines : List Char → List (List Char)
  | [] => []
  | '\n' :: rest => [] :: lines rest
  | '\r' :: '\n' :: rest => [] :: lines rest
  | c :: rest =>
    match lines rest with
    | [] => [[c]]
    | line :: more => (c :: line) :: more

@[simp] theorem lines_nil : lines [] = [] := rfl

@[simp] theorem lines_newline (rest : List Char) : lines ('\n' :: rest) = [] :: lines rest := by
  simp [lines]

@[simp] theorem lines_return_newline (rest : List Char) :
    lines ('\r' :: '\n' :: rest) = [] :: lines rest := by
  simp [lines]

/-- A line that holds no newline and does not end in a carriage return stands in
front of the lines after its newline. -/
theorem lines_append_newline {line : List Char} (hnewline : '\n' ∉ line)
    (hreturn : '\r' ∉ line.getLast?) (rest : List Char) :
    lines (line ++ '\n' :: rest) = line :: lines rest := by
  induction line with
  | nil => exact lines_newline rest
  | cons c line ih =>
      have hline : lines (line ++ '\n' :: rest) = line :: lines rest := by
        apply ih (fun hmem => hnewline (List.mem_cons_of_mem c hmem))
        intro hlast
        cases line with
        | nil => cases hlast
        | cons d line => exact hreturn hlast
      rw [List.cons_append, lines, hline]
      · exact fun heq => hnewline (heq ▸ List.mem_cons_self)
      · -- A return at the very end is excluded, one further left is followed by another character.
        rintro tail rfl htail
        cases line with
        | nil => exact hreturn rfl
        | cons d line =>
            injection htail with hd
            exact hnewline (hd ▸ List.mem_cons_of_mem _ List.mem_cons_self)

end AtomCompiler.Text
