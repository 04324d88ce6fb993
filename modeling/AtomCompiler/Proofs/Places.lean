import AtomCompiler.Source

/-!
# Places and lines

Places are counted character by character; the lines of a text are cut out on their
own, and lose their carriage returns.  Both come to the same: what stands in the text
at a place stands there on the line of the place.

* `Text.onLine` — the line that a place in a text is on;
* `Position.afterText_le` — how far a text can lead;
* `Span.exists_line` — a part of a line is found in the columns of its span.
-/

namespace AtomCompiler

/-! ## Lines and places -/

namespace Text

/-- A character that ends no line belongs to the line of what follows it. -/
theorem lines_cons {c : Char} {rest : List Char} (hnewline : c ≠ '\n')
    (hreturn : c = '\r' → rest.head? ≠ some '\n') :
    lines (c :: rest) = (c :: (lines rest).headD []) :: (lines rest).tail := by
  rw [lines]
  · cases lines rest <;> rfl
  · exact hnewline
  · rintro tail rfl rfl
    exact hreturn rfl rfl

/-- A text without newlines stands at the beginning of its line, unless it ends with the
carriage return of a line ending. -/
theorem lines_row_append {row behind : List Char} (hne : row ≠ []) (hnewline : '\n' ∉ row)
    (hreturn : behind.head? = some '\n' → row.getLast? ≠ some '\r') :
    lines (row ++ behind) = (row ++ (lines behind).headD []) :: (lines behind).tail := by
  induction row with
  | nil => exact (hne rfl).elim
  | cons c row ih =>
      rw [List.mem_cons, not_or] at hnewline
      cases row with
      | nil =>
          refine lines_cons (Ne.symm hnewline.1) fun hc hhead => ?_
          exact hreturn hhead (congrArg some hc)
      | cons d row =>
          have hd : (d :: row ++ behind).head? ≠ some '\n' := by
            intro hhead
            exact hnewline.2 (Option.some.inj hhead ▸ List.mem_cons_self)
          rw [List.cons_append, lines_cons (Ne.symm hnewline.1) fun _ => hd,
            ih (List.cons_ne_nil d row) hnewline.2 hreturn]
          rfl

/-- A text without newlines and returns stands at the beginning of its line. -/
theorem lines_plain_append {text : List Char} (hne : text ≠ [])
    (h : ∀ c ∈ text, c ≠ '\n' ∧ c ≠ '\r') (after : List Char) :
    ∃ tail more, lines (text ++ after) = (text ++ tail) :: more := by
  refine ⟨_, _, lines_row_append hne (fun hmem => (h _ hmem).1 rfl) fun _ hlast => ?_⟩
  exact (h _ (List.mem_of_getLast? hlast)).2 rfl

/-- A place in a text, after some complete lines and the start of one that goes on
with the given characters. -/
def OnLine (position : Position) (before rest first : List Char) (more : List (List Char)) : Prop :=
  ∃ done start, lines (before ++ rest) = done ++ (start ++ first) :: more ∧
    position.afterText before = ⟨position.line + done.length,
      (if done = [] then position.column else 1) + start.length⟩

namespace OnLine

variable {position : Position} {before rest first : List Char} {more : List (List Char)}

/-- A character that ends no line moves the place by one column. -/
theorem cons {c : Char} (hnewline : c ≠ '\n')
    (hreturn : c = '\r' → (before ++ rest).head? ≠ some '\n')
    (h : OnLine (position.after c) before rest first more) :
    OnLine position (c :: before) rest first more := by
  obtain ⟨done, start, hlines, hplace⟩ := h
  have hcons := lines_cons hnewline hreturn
  rw [hlines] at hcons
  simp only [Position.after, if_neg hnewline] at hplace
  cases done with
  | nil =>
      refine ⟨[], c :: start, hcons, ?_⟩
      rw [Position.afterText_cons, Position.after, if_neg hnewline, hplace]
      simp only [if_true, List.length_cons, List.length_nil, Position.mk.injEq, true_and]
      omega
  | cons line done =>
      refine ⟨(c :: line) :: done, start, hcons, ?_⟩
      rw [Position.afterText_cons, Position.after, if_neg hnewline, hplace]
      simp

/-- A newline ends a line. -/
theorem newline (ending : List Char) (hending : lines (ending ++ before ++ rest) =
      [] :: lines (before ++ rest)) (hplace : position.afterText ending = ⟨position.line + 1, 1⟩)
    (h : OnLine ⟨position.line + 1, 1⟩ before rest first more) :
    OnLine position (ending ++ before) rest first more := by
  obtain ⟨done, start, hlines, hafter⟩ := h
  refine ⟨[] :: done, start, by rw [hending, hlines]; rfl, ?_⟩
  rw [Position.afterText_append, hplace, hafter]
  simp only [List.length_cons, reduceCtorEq, if_false, ite_self, Position.mk.injEq, and_true]
  omega

end OnLine

/-- **The line that a place in a text is on.**  The lines before it are complete, and
the line goes on with the first line of the text from that place. -/
theorem onLine (before : List Char) {rest first : List Char} {more : List (List Char)}
    (hrest : rest.head? ≠ some '\n') (hlines : lines rest = first :: more) (position : Position) :
    OnLine position before rest first more := by
  have hreturn : ∀ (c : Char) (before : List Char),
      (∀ tail, c = '\r' → before = '\n' :: tail → False) →
      c = '\r' → (before ++ rest).head? ≠ some '\n' := by
    intro c before hnot hc hhead
    cases before with
    | nil => exact hrest hhead
    | cons d before =>
        obtain rfl := Option.some.inj hhead
        exact hnot before hc rfl
  induction before using lines.induct generalizing position with
  | case1 => exact ⟨[], [], hlines, rfl⟩
  | case2 before ih => exact .newline ['\n'] (lines_newline _) rfl (ih _)
  | case3 before ih => exact .newline ['\r', '\n'] (lines_return_newline _) rfl (ih _)
  | case4 c before hnewline hnot hnil ih => exact .cons hnewline (hreturn c before hnot) (ih _)
  | case5 c before hnewline hnot line lines hmore ih =>
      exact .cons hnewline (hreturn c before hnot) (ih _)

end Text

/-! ## Spans -/

/-- A place is no further down, and no further to the right, than there are characters
before it. -/
theorem Position.afterText_le (position : Position) (h : 1 ≤ position.column) (text : List Char) :
    (position.afterText text).line ≤ position.line + text.length ∧
      (position.afterText text).column ≤ position.column + text.length := by
  induction text generalizing position with
  | nil => exact ⟨Nat.le_refl _, Nat.le_refl _⟩
  | cons c text ih =>
      rw [afterText_cons, List.length_cons]
      by_cases hc : c = '\n'
      · have hle := ih (position.after c) (by simp [after, hc])
        simp only [after, if_pos hc] at hle ⊢
        omega
      · have hle := ih (position.after c) (by simp [after, hc])
        simp only [after, if_neg hc] at hle ⊢
        omega

namespace Span

/-- The columns of a span, cut out of its line. -/
def cut (span : Span) (line : String) : List Char :=
  (line.toList.drop (span.first.column - 1)).take (span.last.column + 1 - span.first.column)

variable {lexeme : List Char}

/-- A span ends no further away than its text does. -/
theorem last_le (hne : lexeme ≠ []) (before after : List Char) :
    (ofText (Position.afterText {} before) lexeme).last.line ≤
        (before ++ (lexeme ++ after)).length ∧
      (ofText (Position.afterText {} before) lexeme).last.column ≤
        (before ++ (lexeme ++ after)).length := by
  have hle := Position.afterText_le ⟨1, 1⟩ (Nat.le_refl 1) (before ++ lexeme.dropLast)
  have hpos := List.length_pos_iff.mpr hne
  simp only [Position.afterText_append, List.length_append, List.length_dropLast] at hle
  simp only [ofText, List.length_append]
  constructor <;> omega

/-- **A part of a line is found in the columns of its span.** -/
theorem exists_line (hne : lexeme ≠ []) (hplain : ∀ c ∈ lexeme, c ≠ '\n' ∧ c ≠ '\r')
    (before after : List Char) {span : Span}
    (hspan : span = ofText (Position.afterText {} before) lexeme) :
    span.first.line = span.last.line ∧ ∃ index line, span.first.line = index + 1 ∧
      (Text.lines (before ++ (lexeme ++ after)))[index]? = some line ∧
      span.cut (String.ofList line) = lexeme := by
  have hhead : (lexeme ++ after).head? ≠ some '\n' := by
    obtain ⟨c, tail, rfl⟩ := List.exists_cons_of_ne_nil hne
    intro hc
    exact (hplain c List.mem_cons_self).1 (Option.some.inj hc)
  obtain ⟨tail, more, hfirst⟩ := Text.lines_plain_append hne hplain after
  obtain ⟨done, start, hlines, hplace⟩ := Text.onLine before hhead hfirst {}
  have hlast := Position.afterText_of_no_newline
    (fun c hc => (hplain c (List.dropLast_subset lexeme hc)).1) (Position.afterText {} before)
  have hcolumn : (Position.afterText {} before).column = 1 + start.length := by
    rw [hplace, ite_self]
  have hpos := List.length_pos_iff.mpr hne
  refine ⟨by rw [hspan, ofText, hlast], done.length, start ++ (lexeme ++ tail), ?_, ?_, ?_⟩
  · rw [hspan, ofText, hplace, Nat.add_comm]
  · rw [hlines, List.getElem?_append_right (Nat.le_refl _), Nat.sub_self]
    rfl
  · have hwidth : (Position.afterText {} before).column + (lexeme.length - 1) + 1 -
        (Position.afterText {} before).column = lexeme.length := by
      omega
    rw [hspan, ofText, hlast, cut, String.toList_ofList, List.length_dropLast, hwidth,
      hcolumn, Nat.add_sub_cancel_left, List.drop_left, List.take_left]

end Span

end AtomCompiler
