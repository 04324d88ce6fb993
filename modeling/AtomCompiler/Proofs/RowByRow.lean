import AtomCompiler.Proofs.Cutting

/-!
# Scanning row by row

No piece of a text reaches over a newline, and after a fault only the rest of its
row is skipped.  So a text is scanned row by row, and each row has at most one
fault.

* `Piece.Cut.append_newline` — a piece is the same whatever follows its row;
* `scanFrom_append_newline` — a text is scanned up to a newline, and from there on;
* `scan_eq_flatMap_rowsOf` — the items of a text are those of its rows;
* `scan_row_by_row` — what this says about the tokens and the errors of a text.
-/

namespace AtomCompiler

/-! ## Pieces and newlines -/

/-- What stops a run still does if a newline and more come behind it. -/
theorem Stops.append_newline {p : Char → Bool} {rest : List Char} (h : Stops p rest)
    (hp : p '\n' = false) (more : List Char) : Stops p (rest ++ '\n' :: more) := by
  intro c hc
  cases rest with
  | nil =>
      obtain rfl := Option.some.inj hc
      exact hp
  | cons d rest => exact h c hc

/-- No run goes beyond a newline. -/
theorem takeWhile_append_newline {p : Char → Bool} (hp : p '\n' = false) (rest more : List Char) :
    (rest ++ '\n' :: more).takeWhile p = rest.takeWhile p ∧
      (rest ++ '\n' :: more).dropWhile p = rest.dropWhile p ++ '\n' :: more := by
  have hall : ∀ c ∈ rest.takeWhile p, p c = true :=
    fun c hc => List.all_eq_true.mp List.all_takeWhile c hc
  have hstops := (stops_dropWhile p rest).append_newline hp more
  have hcut : rest ++ '\n' :: more =
      rest.takeWhile p ++ (rest.dropWhile p ++ '\n' :: more) := by
    rw [← List.append_assoc, List.takeWhile_append_dropWhile]
  exact ⟨by rw [hcut, takeWhile_of_stops hall hstops],
    by rw [hcut, dropWhile_of_stops hall hstops]⟩

/-- A newline behind a text brings no other character to its front. -/
theorem head?_append_newline {rest : List Char} {c : Char} (h : rest.head? ≠ some c)
    (hc : c ≠ '\n') (more : List Char) : (rest ++ '\n' :: more).head? ≠ some c := by
  cases rest with
  | nil => simpa using hc.symm
  | cons d rest => exact h

namespace Piece

/-- The same piece with more text after it. -/
def followedBy (piece : Piece) (more : List Char) : Piece :=
  { piece with rest := piece.rest ++ more }

/-- **A piece is the same whatever follows its row.** -/
theorem Cut.append_newline {c : Char} {rest : List Char} {piece : Piece} (h : Cut c rest piece)
    (more : List Char) : Cut c (rest ++ '\n' :: more) (piece.followedBy ('\n' :: more)) := by
  have hnewline : ∀ sign ∈ operatorSigns, sign.second ≠ '\n' := by decide
  cases h with
  | symbol hmem => exact .symbol hmem _
  | divide hslash => exact .divide (head?_append_newline hslash (by decide) more)
  | comment hbody hstops =>
      rw [List.cons_append, List.append_assoc]
      exact .comment hbody (hstops.append_newline rfl more)
  | short hsign hsecond =>
      exact .short hsign (head?_append_newline hsecond (hnewline _ hsign) more)
  | long hsign => exact .long hsign _
  | word hword hstops =>
      rw [List.append_assoc]
      exact .word hword (hstops.append_newline rfl more)
  | integer hdigits hstops hpoint =>
      rw [List.append_assoc]
      exact .integer hdigits (hstops.append_newline rfl more)
        (head?_append_newline hpoint (by decide) more)
  | double hdigits hfraction hstops =>
      rw [List.append_assoc, List.cons_append, List.append_assoc]
      exact .double hdigits hfraction (hstops.append_newline rfl more)
  | malformed hdigits hstops =>
      rw [List.append_assoc, List.cons_append]
      exact .malformed hdigits (hstops.append_newline rfl more)
  | blank hspace => exact .blank hspace _
  | bad halone hsymbol hslash hspace => exact .bad halone hsymbol hslash hspace _

/-- **No piece goes beyond a newline,** so what comes behind one does not change it. -/
theorem first_append_newline (c : Char) (rest more : List Char) :
    first c (rest ++ '\n' :: more) = (first c rest).followedBy ('\n' :: more) :=
  ((cut_first c rest).append_newline more).first_eq

end Piece

/-! ## Texts and newlines -/

section Scan

variable {c : Char} {text : List Char}

/-- A gap gives no item. -/
theorem scanFrom_of_gap (h : (Piece.first c text).kind = .gap) (position : Position) :
    scanFrom position (c :: text) =
      scanFrom (position.afterText (Piece.first c text).lexeme) (Piece.first c text).rest := by
  rw [scanFrom]
  simp only [h]

/-- A token is an item, and scanning goes on behind it. -/
theorem scanFrom_of_token {kind : TokenKind} (h : (Piece.first c text).kind = .token kind)
    (position : Position) :
    scanFrom position (c :: text) =
      .ok ⟨⟨kind, String.ofList (Piece.first c text).lexeme⟩,
        Span.ofText position (Piece.first c text).lexeme⟩ ::
      scanFrom (position.afterText (Piece.first c text).lexeme) (Piece.first c text).rest := by
  rw [scanFrom]
  simp only [h]

/-- A fault is an item, and scanning goes on at the next line. -/
theorem scanFrom_of_fault {error : LexicalError} (h : (Piece.first c text).kind = .fault error)
    (position : Position) :
    scanFrom position (c :: text) =
      .error ⟨error, Span.ofText position (Piece.first c text).lexeme⟩ ::
      scanFrom ((position.afterText (Piece.first c text).lexeme).afterText
        (restOfLine (Piece.first c text).rest)) (nextLine (Piece.first c text).rest) := by
  rw [scanFrom]
  simp only [h]

end Scan

/-- The place after a piece and what follows it is the place after the text. -/
theorem Piece.Begins.afterText {piece : Piece} {text : List Char} (h : piece.Begins text)
    (position : Position) (more : List Char) :
    (position.afterText piece.lexeme).afterText (piece.rest ++ more) =
      position.afterText (text ++ more) := by
  rw [← Position.afterText_append, ← List.append_assoc, h.lexeme_append_rest]

theorem restOfLine_append_newline (rest more : List Char) :
    restOfLine (rest ++ '\n' :: more) = restOfLine rest :=
  (takeWhile_append_newline rfl rest more).1

theorem nextLine_append_newline (rest more : List Char) :
    nextLine (rest ++ '\n' :: more) = nextLine rest ++ '\n' :: more :=
  (takeWhile_append_newline rfl rest more).2

/-- Nothing is lost between a line and the next. -/
theorem restOfLine_append_nextLine (rest : List Char) : restOfLine rest ++ nextLine rest = rest :=
  List.takeWhile_append_dropWhile

/-- **A text is scanned up to a newline, and from there on.** -/
theorem scanFrom_append_newline (position : Position) (text more : List Char) :
    scanFrom position (text ++ '\n' :: more) =
      scanFrom position text ++ scanFrom (position.afterText (text ++ ['\n'])) more := by
  fun_induction scanFrom position text with
  | case1 position => exact scanFrom_of_gap rfl position
  | case2 position c text piece next hkind ih =>
      have hfirst := Piece.first_append_newline c text more
      have hnext := (Piece.first_begins c text).afterText position ['\n']
      rw [List.cons_append, scanFrom_of_gap (by rw [hfirst]; exact hkind), hfirst]
      exact ih.trans (by rw [hnext])
  | case3 position c text piece next span kind hkind ih =>
      have hfirst := Piece.first_append_newline c text more
      have hnext := (Piece.first_begins c text).afterText position ['\n']
      rw [List.cons_append, scanFrom_of_token (by rw [hfirst]; exact hkind), hfirst,
        List.cons_append]
      exact congrArg _ (ih.trans (by rw [hnext]))
  | case4 position c text piece next span error hkind ih =>
      have hfirst := Piece.first_append_newline c text more
      have hnext : (next.afterText (restOfLine piece.rest)).afterText
          (nextLine piece.rest ++ ['\n']) = position.afterText (c :: text ++ ['\n']) := by
        rw [← Position.afterText_append, ← List.append_assoc, restOfLine_append_nextLine]
        exact (Piece.first_begins c text).afterText position ['\n']
      rw [List.cons_append, scanFrom_of_fault (by rw [hfirst]; exact hkind), hfirst,
        List.cons_append]
      simp only [Piece.followedBy, restOfLine_append_newline, nextLine_append_newline]
      exact congrArg _ (ih.trans (by rw [hnext]))

/-! ## Places further down -/

/-- The place as many lines further down. -/
def Position.down (lines : Nat) (position : Position) : Position :=
  ⟨position.line + lines, position.column⟩

/-- The same columns as many lines further down. -/
def Span.down (lines : Nat) (span : Span) : Span :=
  ⟨span.first.down lines, span.last.down lines⟩

/-- The same value as many lines further down. -/
def Located.down {α : Type} (lines : Nat) (located : Located α) : Located α :=
  { located with span := located.span.down lines }

/-- The same item as many lines further down. -/
def ScanItem.down (lines : Nat) : ScanItem → ScanItem
  | .ok token => .ok (token.down lines)
  | .error error => .error (error.down lines)

/-- Positions further down move over a text as those above do. -/
theorem Position.afterText_down (lines : Nat) (position : Position) (text : List Char) :
    (position.down lines).afterText text = (position.afterText text).down lines := by
  induction text generalizing position with
  | nil => rfl
  | cons c text ih =>
      have hafter : (position.down lines).after c = (position.after c).down lines := by
        unfold after down
        split
        · simp only [mk.injEq, and_true]
          omega
        · rfl
      rw [afterText_cons, afterText_cons, hafter, ih]

/-- The span of a text further down is the span above, moved down. -/
theorem Span.ofText_down (lines : Nat) (position : Position) (text : List Char) :
    Span.ofText (position.down lines) text = (Span.ofText position text).down lines := by
  rw [ofText, Position.afterText_down]
  rfl

/-- A text that begins further down has its items further down. -/
theorem scanFrom_down (lines : Nat) (position : Position) (text : List Char) :
    scanFrom (position.down lines) text = (scanFrom position text).map (ScanItem.down lines) := by
  fun_induction scanFrom position text with
  | case1 position => simp [scanFrom]
  | case2 position c text piece next hkind ih =>
      rw [scanFrom_of_gap hkind, Position.afterText_down]
      exact ih
  | case3 position c text piece next span kind hkind ih =>
      rw [scanFrom_of_token hkind, Position.afterText_down, Span.ofText_down, List.map_cons]
      exact congrArg _ ih
  | case4 position c text piece next span error hkind ih =>
      rw [scanFrom_of_fault hkind, Position.afterText_down, Position.afterText_down,
        Span.ofText_down, List.map_cons]
      exact congrArg _ ih

/-- Every newline leads to the beginning of the next line. -/
theorem Position.afterText_newline (position : Position) (text : List Char) :
    position.afterText (text ++ ['\n']) = ⟨position.line + text.count '\n' + 1, 1⟩ := by
  induction text generalizing position with
  | nil => rfl
  | cons c text ih =>
      rw [List.cons_append, afterText_cons, ih]
      by_cases hc : c = '\n'
      · subst hc
        simp only [after, if_true, List.count_cons_self, mk.injEq, and_true]
        omega
      · simp [after, hc]

/-- The part of a text behind a newline is scanned as a text of its own. -/
theorem scanFrom_newline_append (text more : List Char) :
    scanFrom {} (text ++ '\n' :: more) =
      scanFrom {} text ++ (scanFrom {} more).map (ScanItem.down (1 + text.count '\n')) := by
  have hplace : (Position.afterText {} (text ++ ['\n'])) =
      Position.down (1 + text.count '\n') {} := by
    rw [Position.afterText_newline]
    simp only [Position.down, Position.mk.injEq, and_true]
    omega
  rw [scanFrom_append_newline, hplace, scanFrom_down]

/-! ## Tokens and errors -/

@[simp] theorem scanErrors_append (first second : List ScanItem) :
    scanErrors (first ++ second) = scanErrors first ++ scanErrors second :=
  List.filterMap_append

@[simp] theorem scanErrors_map_ok (tokens : List (Located Token)) :
    scanErrors (tokens.map .ok) = [] := by
  simp [scanErrors, List.filterMap_map]

@[simp] theorem scanErrors_map_error (errors : List (Located LexicalError)) :
    scanErrors (errors.map .error) = errors := by
  rw [scanErrors, List.filterMap_map]
  exact List.filterMap_some

@[simp] theorem scanTokens_map_ok (tokens : List (Located Token)) :
    scanTokens (tokens.map .ok) = tokens := by
  rw [scanTokens, List.filterMap_map]
  exact List.filterMap_some

/-- The errors further down are the errors above, moved down. -/
theorem scanErrors_map_down (lines : Nat) (items : List ScanItem) :
    scanErrors (items.map (ScanItem.down lines)) = (scanErrors items).map (Located.down lines) := by
  rw [scanErrors, scanErrors, List.filterMap_map, List.map_filterMap]
  refine congrArg (List.filterMap · items) (funext fun item => ?_)
  cases item <;> rfl

/-- Items without an error are tokens. -/
theorem eq_map_scanTokens {items : List ScanItem} (h : scanErrors items = []) :
    items = (scanTokens items).map .ok := by
  induction items with
  | nil => rfl
  | cons item items ih =>
      cases item with
      | error error => simp [scanErrors] at h
      | ok token => exact congrArg (List.cons _) (ih h)

/-- **A text has tokens if nothing else is found in it.** -/
theorem tokenize_eq_ok_iff {text : String} {tokens : List (Located Token)} :
    tokenize text = .ok tokens ↔ scan text = tokens.map .ok := by
  constructor
  · intro h
    simp only [tokenize] at h
    split at h
    · next hnone =>
        obtain rfl := Except.ok.inj h
        exact eq_map_scanTokens hnone
    · cases h
  · intro h
    simp [tokenize, h]

/-- A text is refused with exactly the errors that were scanned, if there are any. -/
theorem tokenize_eq_error_iff {text : String} {errors : List (Located LexicalError)} :
    tokenize text = .error errors ↔ scanErrors (scan text) = errors ∧ errors ≠ [] := by
  simp only [tokenize]
  split
  · next hnone => simp [hnone, eq_comm]
  · next hsome =>
      constructor
      · intro h
        obtain rfl := Except.error.inj h
        exact ⟨rfl, hsome⟩
      · rintro ⟨rfl, -⟩
        rfl

/-! ## Rows -/

/-- The rows of a text: what stands between its newlines. -/
def rowsOf (text : String) : List String :=
  (text.toList.splitOn '\n').map String.ofList

/-- A text is one row, or it is a row and a newline before another text. -/
theorem row_induction {motive : List Char → Prop} (last : ∀ row, '\n' ∉ row → motive row)
    (more : ∀ row rest, '\n' ∉ row → motive rest → motive (row ++ '\n' :: rest))
    (text : List Char) : motive text := by
  by_cases hnewline : '\n' ∈ text
  · obtain ⟨row, rest, htext, hrow⟩ := List.eq_append_cons_of_mem hnewline
    have hshorter : rest.length < text.length := by
      rw [htext, List.length_append, List.length_cons]
      omega
    rw [htext]
    exact more row rest hrow (row_induction last more rest)
  · exact last text hnewline
termination_by text.length

/-- No piece between newlines has a newline in it. -/
theorem newline_not_mem_of_mem_splitOn {text row : List Char} (h : row ∈ text.splitOn '\n') :
    '\n' ∉ row := by
  induction text using row_induction with
  | last line hline =>
      rw [List.splitOn_eq_singleton hline] at h
      exact List.mem_singleton.mp h ▸ hline
  | more line rest hline ih =>
      rw [List.splitOn_append_cons_self_of_not_mem hline] at h
      rcases List.mem_cons.mp h with rfl | h
      · exact hline
      · exact ih h

/-- The last row has no next line. -/
theorem nextLine_eq_nil {rest : List Char} (h : '\n' ∉ rest) : nextLine rest = [] := by
  rw [nextLine, ← List.append_nil rest,
    List.dropWhile_append_of_pos (ne_newline_of_not_mem h), List.dropWhile_nil]

/-- **A row has tokens, and then at most one fault.** -/
theorem scanFrom_row {text : List Char} (h : '\n' ∉ text) (position : Position) :
    ∃ (tokens : List (Located Token)) (errors : List (Located LexicalError)),
      scanFrom position text = tokens.map .ok ++ errors.map .error ∧ errors.length ≤ 1 := by
  have hrest : ∀ c text, '\n' ∉ c :: text → '\n' ∉ (Piece.first c text).rest := by
    intro c text hnot hmem
    rw [← (Piece.first_begins c text).lexeme_append_rest] at hnot
    exact hnot (List.mem_append_right _ hmem)
  fun_induction scanFrom position text with
  | case1 position => exact ⟨[], [], rfl, Nat.zero_le 1⟩
  | case2 position c text piece next hkind ih => exact ih (hrest c text h)
  | case3 position c text piece next span kind hkind ih =>
      obtain ⟨tokens, errors, heq, hle⟩ := ih (hrest c text h)
      exact ⟨_ :: tokens, errors, by rw [heq]; rfl, hle⟩
  | case4 position c text piece next span error hkind ih =>
      refine ⟨[], [⟨error, span⟩], ?_, Nat.le_refl 1⟩
      rw [nextLine_eq_nil (hrest c text h), scanFrom]
      rfl

theorem ScanItem.down_down (first second : Nat) (item : ScanItem) :
    (item.down first).down second = item.down (first + second) := by
  cases item <;> simp [ScanItem.down, Located.down, Span.down, Position.down, Nat.add_assoc]

theorem ScanItem.down_zero (item : ScanItem) : item.down 0 = item := by
  cases item <;> rfl

/-- The items of a text are those of its rows, each as many lines down as there are
rows before it. -/
theorem scanFrom_eq_flatMap (text : List Char) (lines : Nat) :
    (scanFrom {} text).map (ScanItem.down lines) =
      ((text.splitOn '\n').zipIdx lines).flatMap fun (row, index) =>
        (scanFrom {} row).map (ScanItem.down index) := by
  induction text using row_induction generalizing lines with
  | last row hrow =>
      rw [List.splitOn_eq_singleton hrow]
      simp
  | more row rest hrow ih =>
      rw [List.splitOn_append_cons_self_of_not_mem hrow, List.zipIdx_cons, List.flatMap_cons,
        ← ih, scanFrom_newline_append, List.count_eq_zero.mpr hrow, List.map_append, List.map_map]
      simp only [Function.comp_def, ScanItem.down_down, Nat.add_comm]

/-- **The items of a text are those of its rows.** -/
theorem scan_eq_flatMap_rowsOf (text : String) :
    scan text = (rowsOf text).zipIdx.flatMap fun (row, index) =>
      (scan row).map (ScanItem.down index) := by
  have hitems := scanFrom_eq_flatMap text.toList 0
  rw [funext ScanItem.down_zero, List.map_id'] at hitems
  rw [scan, hitems, rowsOf, List.zipIdx_map, List.flatMap_map]
  simp [scan]

/-- The first error of every row that has one, from the first row to the last. -/
def firstFaults (text : String) : List (Located LexicalError) :=
  (rowsOf text).zipIdx.flatMap fun (row, index) =>
    ((scanErrors (scan row)).take 1).map (Located.down index)

/-- No row has a newline in it. -/
theorem newline_not_mem_of_mem_rowsOf {text row : String} (h : row ∈ rowsOf text) :
    '\n' ∉ row.toList := by
  obtain ⟨line, hline, rfl⟩ := List.mem_map.mp h
  rw [String.toList_ofList]
  exact newline_not_mem_of_mem_splitOn hline

/-- A row has its first error and no other. -/
theorem scanErrors_row {row : String} (h : '\n' ∉ row.toList) :
    scanErrors (scan row) = (scanErrors (scan row)).take 1 := by
  obtain ⟨tokens, errors, hitems, hle⟩ := scanFrom_row h {}
  rw [scan, hitems, scanErrors_append, scanErrors_map_ok, scanErrors_map_error, List.nil_append,
    List.take_of_length_le hle]

/-- **The errors of a text are the first errors of its rows.** -/
theorem scanErrors_scan (text : String) : scanErrors (scan text) = firstFaults text := by
  rw [scan_eq_flatMap_rowsOf, scanErrors, List.filterMap_flatMap, firstFaults, List.flatMap_def,
    List.flatMap_def]
  refine congrArg List.flatten (List.map_congr_left fun (row, index) hentry => ?_)
  have hrow := scanErrors_row (newline_not_mem_of_mem_rowsOf (List.fst_mem_of_mem_zipIdx hentry))
  exact (scanErrors_map_down index (scan row)).trans (congrArg (List.map _) hrow)

/-- A text has an error if one of its rows has. -/
theorem firstFaults_ne_nil_iff {text : String} :
    firstFaults text ≠ [] ↔ ∃ row ∈ rowsOf text, scanErrors (scan row) ≠ [] := by
  have hrows : firstFaults text = [] ↔ ∀ row ∈ rowsOf text, scanErrors (scan row) = [] := by
    rw [firstFaults, List.flatMap_eq_nil_iff]
    constructor
    · intro h row hrow
      rw [← List.zipIdx_map_fst 0 (rowsOf text)] at hrow
      obtain ⟨entry, hentry, rfl⟩ := List.mem_map.mp hrow
      simpa using h entry hentry
    · intro h entry hentry
      simp [h entry.1 (List.fst_mem_of_mem_zipIdx hentry)]
  simp [hrows]

/-- **Texts are scanned row by row.**  What stands behind a newline is scanned as a
text of its own, only further down; a row has tokens and then at most one error,
after which nothing is found.  So a text is refused exactly if one of its rows has
an error, its errors are the first of each such row, in order, and otherwise its
tokens are all that is found. -/
theorem scan_row_by_row :
    (∀ a b : String, scan (a ++ "\n" ++ b) =
      scan (a ++ "\n") ++ (scan b).map (ScanItem.down (1 + a.toList.count '\n'))) ∧
    (∀ row : String, '\n' ∉ row.toList →
      ∃ (tokens : List (Located Token)) (errors : List (Located LexicalError)),
        scan row = tokens.map .ok ++ errors.map .error ∧ errors.length ≤ 1) ∧
    ∀ text : String,
      ((∃ errors, tokenize text = .error errors) ↔
        ∃ row ∈ rowsOf text, scanErrors (scan row) ≠ []) ∧
      (∀ errors, tokenize text = .error errors → errors = firstFaults text) ∧
      ∀ tokens, tokenize text = .ok tokens ↔ scan text = tokens.map .ok := by
  refine ⟨fun a b => ?_, fun row hrow => scanFrom_row hrow {}, fun text => ⟨?_, ?_, ?_⟩⟩
  · have hbefore : scan (a ++ "\n") = scan a := by
      have hend := scanFrom_newline_append a.toList []
      rw [scanFrom, List.map_nil, List.append_nil] at hend
      rw [scan, String.toList_append]
      exact hend
    rw [hbefore, scan, String.toList_append, String.toList_append, List.append_assoc]
    exact scanFrom_newline_append a.toList b.toList
  · rw [← firstFaults_ne_nil_iff, ← scanErrors_scan]
    constructor
    · rintro ⟨errors, h⟩
      obtain ⟨rfl, hne⟩ := tokenize_eq_error_iff.mp h
      exact hne
    · intro hne
      exact ⟨_, tokenize_eq_error_iff.mpr ⟨rfl, hne⟩⟩
  · intro errors h
    rw [← scanErrors_scan, (tokenize_eq_error_iff.mp h).1]
  · exact fun tokens => tokenize_eq_ok_iff

end AtomCompiler
