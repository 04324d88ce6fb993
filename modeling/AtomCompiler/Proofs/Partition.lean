import AtomCompiler.Proofs.Places
import AtomCompiler.Proofs.RowByRow

/-!
# How a text is divided

What scanning finds in a text can be said without scanning it: the text is a row of
lexemes with gaps between them, each lexeme as long as the text allows, and only the
rest of a line is left out after a fault.  Every text can be divided in this way,
and in no other.

* `LexicalError.Faults`, `Gap`, `Partition` — the division of a text, as a relation;
* `Piece.cut_of_faults`, `Piece.Cut.faults` — faulty lexemes are cut off as they
  stand, and nothing else is found faulty;
* `partition_iff` — scanning finds this division;
* `Partition.standsFor` — every item stands for a part of the text;
* `scan_divides_text` — what this says about texts, tokens and places.
-/

namespace AtomCompiler

/-! ## Faults -/

/-- The faulty lexemes, by their errors and the text after them: a character that no
token begins with, the first half of an operator without its second, and digits with a
point but no digit behind it. -/
def LexicalError.Faults : LexicalError → List Char → List Char → Prop
  | badCharacter c, lexeme, _ => lexeme = [c] ∧ isSpace c = false ∧
    ∀ (kind : TokenKind) (more : List Char), ¬kind.Spells (c :: more)
  | expected c, lexeme, rest => lexeme = ['!'] ∧ c = '=' ∧ rest.head? ≠ some '='
  | malformedDouble, lexeme, rest =>
    (∃ digits, IsDigits digits ∧ lexeme = digits ++ ['.']) ∧ Stops Char.isDigit rest

/-- A symbol is spelled by its character. -/
theorem spells_of_mem_symbols {c : Char} {kind : TokenKind} (h : (c, kind) ∈ symbols) :
    kind.Spells [c] := by
  have hall : ∀ entry ∈ symbols, entry.2.Spells [entry.1] := by
    simp only [symbols, List.forall_mem_cons]
    exact ⟨rfl, rfl, rfl, rfl, rfl, rfl, by simp⟩
  exact hall (c, kind) h

/-- No token begins with a character outside the tables. -/
theorem not_spells_of_standsAlone {c : Char} (halone : standsAlone c = true)
    (hsymbol : ∀ kind, (c, kind) ∉ symbols) (hslash : c ≠ '/') (kind : TokenKind)
    (more : List Char) : ¬kind.Spells (c :: more) := by
  obtain ⟨halpha, hdigit, hsigns⟩ := standsAlone_iff.mp halone
  intro h
  rcases h.head_cases with ⟨hc, -⟩ | ⟨hc, -⟩ | ⟨-, -, ⟨-, hc | ⟨kind, hmem⟩⟩ | ⟨sign, hsign, hc, -⟩⟩
  · simp [halpha] at hc
  · simp [hdigit] at hc
  · exact hslash hc
  · exact hsymbol kind hmem
  · exact hsigns sign hsign hc

/-- A character that no token begins with is outside the tables. -/
theorem standsAlone_of_not_spells {c : Char}
    (h : ∀ (kind : TokenKind) (more : List Char), ¬kind.Spells (c :: more)) :
    standsAlone c = true ∧ (∀ kind, (c, kind) ∉ symbols) ∧ c ≠ '/' := by
  refine ⟨standsAlone_iff.mpr ⟨?_, ?_, ?_⟩, ?_, ?_⟩
  · refine Bool.eq_false_iff.mpr fun halpha => ?_
    have hword : IsWord [c] := ⟨halpha, by simp⟩
    obtain ⟨kind, hspells⟩ := hword.exists_spells
    exact h kind [] hspells
  · exact Bool.eq_false_iff.mpr fun hdigit => h .integer [] ⟨by simp, by simpa using hdigit⟩
  · intro sign hsign heq
    subst heq
    exact h _ _ (spells_of_mem_operatorSigns hsign)
  · exact fun kind hmem => h kind [] (spells_of_mem_symbols hmem)
  · intro heq
    subst heq
    exact h .divide [] rfl

namespace Piece

variable {c : Char} {rest : List Char} {error : LexicalError}

/-- **Nothing but faults is found faulty.** -/
theorem Cut.faults {piece : Piece} (h : Cut c rest piece) (hkind : piece.kind = .fault error) :
    error.Faults piece.lexeme piece.rest := by
  cases h with
  | symbol => cases hkind
  | divide => cases hkind
  | comment => cases hkind
  | @short sign _ hsign hsecond =>
      have hall : ∀ sign ∈ operatorSigns, sign.short = .fault error →
          sign.first = '!' ∧ sign.second = '=' ∧ error = .expected '=' := by
        simp [operatorSigns, eq_comm]
      obtain ⟨hfirst, heq, rfl⟩ := hall sign hsign hkind
      exact ⟨by rw [hfirst], rfl, heq ▸ hsecond⟩
  | long => cases hkind
  | word =>
      simp only [wordKind] at hkind
      split at hkind <;> cases hkind
  | integer => cases hkind
  | double => cases hkind
  | malformed hdigits hstops =>
      cases hkind
      exact ⟨⟨_, hdigits, rfl⟩, hstops⟩
  | blank => cases hkind
  | bad halone hsymbol hslash hspace =>
      cases hkind
      exact ⟨rfl, hspace, not_spells_of_standsAlone halone hsymbol hslash⟩

/-- **Every faulty lexeme is cut off as it stands.** -/
theorem cut_of_faults {lexeme : List Char} (h : error.Faults lexeme rest) :
    ∃ c tail, lexeme = c :: tail ∧ Cut c (tail ++ rest) ⟨.fault error, lexeme, rest⟩ := by
  cases error with
  | badCharacter c =>
      obtain ⟨rfl, hspace, hspells⟩ := h
      obtain ⟨halone, hsymbol, hslash⟩ := standsAlone_of_not_spells hspells
      exact ⟨c, [], rfl, .bad halone hsymbol hslash hspace rest⟩
  | expected c =>
      obtain ⟨rfl, rfl, hsecond⟩ := h
      have hsign : (⟨'!', .fault (.expected '='), '=', .notEqual⟩ : OperatorSign) ∈ operatorSigns :=
        by decide
      exact ⟨'!', [], rfl, .short hsign hsecond⟩
  | malformedDouble =>
      obtain ⟨⟨digits, hdigits, rfl⟩, hstops⟩ := h
      obtain ⟨c, tail, rfl⟩ := List.exists_cons_of_ne_nil hdigits.1
      refine ⟨c, tail ++ ['.'], rfl, ?_⟩
      rw [List.append_assoc]
      exact .malformed hdigits hstops

end Piece

/-! ## Gaps -/

/-- What may stand in front of the given text without being part of a lexeme: blanks,
and comments up to a newline or the end. -/
inductive Gap (rest : List Char) : List Char → Prop
  | nil : Gap rest []
  | blank {c : Char} {gap : List Char} (hc : isSpace c = true) (h : Gap rest gap) :
      Gap rest (c :: gap)
  | comment {body gap : List Char} (hbody : '\n' ∉ body)
      (hend : Stops (· != '\n') (gap ++ rest)) (h : Gap rest gap) :
      Gap rest ('/' :: '/' :: (body ++ gap))

/-- Nothing is found in a gap. -/
theorem Gap.scanFrom_append {rest gap : List Char} (h : Gap rest gap) (position : Position) :
    scanFrom position (gap ++ rest) = scanFrom (position.afterText gap) rest := by
  induction h generalizing position with
  | nil => rfl
  | @blank c gap hc h ih =>
      have hfirst := (Piece.Cut.blank hc (gap ++ rest)).first_eq
      rw [List.cons_append, scanFrom_of_gap (by rw [hfirst]), hfirst]
      exact ih (position.after c)
  | @comment body gap hbody hend h ih =>
      have hfirst := (Piece.Cut.comment hbody hend).first_eq
      rw [List.cons_append, List.cons_append, List.append_assoc,
        scanFrom_of_gap (by rw [hfirst]), hfirst, ih, ← Position.afterText_append]
      rfl

/-- **Only blanks and comments are skipped.** -/
theorem Piece.Cut.gap {c : Char} {text : List Char} {piece : Piece} (h : Cut c text piece)
    (hkind : piece.kind = .gap) {gap rest : List Char} (hrest : piece.rest = gap ++ rest)
    (hgap : Gap rest gap) : Gap rest (piece.lexeme ++ gap) := by
  cases h with
  | symbol => cases hkind
  | divide => cases hkind
  | comment hbody hstops => exact .comment hbody (hrest ▸ hstops) hgap
  | short hsign =>
      have hall : ∀ sign ∈ operatorSigns, sign.short ≠ .gap := by decide
      exact (hall _ hsign hkind).elim
  | long => cases hkind
  | word =>
      simp only [wordKind] at hkind
      split at hkind <;> cases hkind
  | integer => cases hkind
  | double => cases hkind
  | malformed => cases hkind
  | blank hblank => exact .blank hblank hgap
  | bad => cases hkind

/-! ## Divisions -/

/-- The division of a text that begins at the given place into gaps and lexemes, and
the items that stand for its lexemes. -/
inductive Partition : Position → List Char → List ScanItem → Prop
  | last {position : Position} {gap : List Char} (hgap : Gap [] gap) : Partition position gap []
  | token {position : Position} {gap lexeme rest : List Char} {kind : TokenKind}
      {items : List ScanItem} (hgap : Gap (lexeme ++ rest) gap) (hspells : kind.Spells lexeme)
      (hwhole : Whole lexeme rest)
      (h : Partition ((position.afterText gap).afterText lexeme) rest items) :
      Partition position (gap ++ (lexeme ++ rest))
        (.ok ⟨⟨kind, String.ofList lexeme⟩, Span.ofText (position.afterText gap) lexeme⟩ :: items)
  | fault {position : Position} {gap lexeme rest : List Char} {error : LexicalError}
      {items : List ScanItem} (hgap : Gap (lexeme ++ rest) gap) (hfaults : error.Faults lexeme rest)
      (h : Partition (((position.afterText gap).afterText lexeme).afterText (restOfLine rest))
        (nextLine rest) items) :
      Partition position (gap ++ (lexeme ++ rest))
        (.error ⟨error, Span.ofText (position.afterText gap) lexeme⟩ :: items)

namespace Partition

variable {position : Position} {text : List Char} {items : List ScanItem}

/-- What a gap stands in front of can be divided with the gap. -/
theorem gap_append {front : List Char}
    (hfront : ∀ gap rest, text = gap ++ rest → Gap rest gap → Gap rest (front ++ gap))
    (h : Partition (position.afterText front) text items) :
    Partition position (front ++ text) items := by
  generalize hplace : position.afterText front = place at h
  cases h with
  | last hgap => exact .last (hfront _ [] (List.append_nil _).symm hgap)
  | token hgap hspells hwhole h =>
      subst hplace
      rw [← List.append_assoc, ← Position.afterText_append]
      rw [← Position.afterText_append position] at h
      exact .token (hfront _ _ rfl hgap) hspells hwhole h
  | fault hgap hfaults h =>
      subst hplace
      rw [← List.append_assoc, ← Position.afterText_append]
      rw [← Position.afterText_append position] at h
      exact .fault (hfront _ _ rfl hgap) hfaults h

/-- A divided text is scanned as it is divided. -/
theorem scanFrom_eq (h : Partition position text items) : scanFrom position text = items := by
  induction h with
  | last hgap =>
      have hscan := hgap.scanFrom_append
      simp only [List.append_nil] at hscan
      rw [hscan, scanFrom]
  | token hgap hspells hwhole h ih =>
      obtain ⟨c, tail, hlexeme, hcut⟩ := Piece.cut_of_spells hspells hwhole
      have hfirst := hcut.first_eq
      rw [hgap.scanFrom_append, hlexeme, List.cons_append,
        scanFrom_of_token (by rw [hfirst]), hfirst, ih, hlexeme]
  | fault hgap hfaults h ih =>
      obtain ⟨c, tail, hlexeme, hcut⟩ := Piece.cut_of_faults hfaults
      have hfirst := hcut.first_eq
      rw [hgap.scanFrom_append, hlexeme, List.cons_append,
        scanFrom_of_fault (by rw [hfirst]), hfirst, ih, hlexeme]

end Partition

/-- Every text can be divided. -/
theorem partition_scanFrom (position : Position) (text : List Char) :
    Partition position text (scanFrom position text) := by
  fun_induction scanFrom position text with
  | case1 position => exact .last .nil
  | case2 position c text piece next hkind ih =>
      rw [← (Piece.first_begins c text).lexeme_append_rest]
      exact ih.gap_append fun gap rest hrest hgap => (Piece.cut_first c text).gap hkind hrest hgap
  | case3 position c text piece next span kind hkind ih =>
      rw [← (Piece.first_begins c text).lexeme_append_rest]
      exact .token .nil (Piece.isSpelled_first c text kind hkind)
        ((Piece.cut_first c text).whole hkind) ih
  | case4 position c text piece next span error hkind ih =>
      rw [← (Piece.first_begins c text).lexeme_append_rest]
      exact .fault .nil ((Piece.cut_first c text).faults hkind) ih

/-- **Scanning finds the division of a text,** and there is no other. -/
theorem partition_iff {position : Position} {text : List Char} {items : List ScanItem} :
    Partition position text items ↔ scanFrom position text = items := by
  constructor
  · exact Partition.scanFrom_eq
  · intro h
    subst h
    exact partition_scanFrom position text

/-! ## Lexemes without blanks -/

/-- A text of one or more characters, none of them a blank. -/
def Solid (text : List Char) : Prop :=
  text ≠ [] ∧ ∀ c ∈ text, isSpace c = false

/-- The characters of words and numbers are no blanks. -/
theorem isSpace_of_isWordCharacter {c : Char} (h : isWordCharacter c = true) :
    isSpace c = false := by
  refine Bool.eq_false_iff.mpr fun hspace => ?_
  simp only [isSpace, Bool.or_eq_true, decide_eq_true_eq] at hspace
  rcases hspace with (((rfl | rfl) | rfl) | rfl) | rfl <;> exact absurd h (by decide)

/-- Digits are solid. -/
theorem IsDigits.solid {text : List Char} (h : IsDigits text) : Solid text := by
  refine ⟨h.1, fun c hc => isSpace_of_isWordCharacter ?_⟩
  simp [isWordCharacter, Char.isAlphanum, h.2 c hc]

/-- Words are solid. -/
theorem IsWord.solid {text : List Char} (h : IsWord text) : Solid text := by
  cases text with
  | nil => exact h.elim
  | cons c text =>
      refine ⟨List.cons_ne_nil c text, List.forall_mem_cons.mpr ⟨?_, fun d hd => ?_⟩⟩
      · exact isSpace_of_isWordCharacter (isWordCharacter_of_isAlpha h.1)
      · exact isSpace_of_isWordCharacter (h.2 d hd)

theorem solid_singleton {c : Char} (h : isSpace c = false) : Solid [c] :=
  ⟨List.cons_ne_nil c [], by simpa using h⟩

/-- Two solid texts make one. -/
theorem Solid.append {first second : List Char} (hfirst : Solid first) (hsecond : Solid second) :
    Solid (first ++ second) := by
  refine ⟨List.append_ne_nil_of_left_ne_nil hfirst.1 second, fun c hc => ?_⟩
  rcases List.mem_append.mp hc with hc | hc
  · exact hfirst.2 c hc
  · exact hsecond.2 c hc

/-- **No token holds a blank.** -/
theorem TokenKind.Spells.solid {kind : TokenKind} {text : List Char} (h : kind.Spells text) :
    Solid text := by
  have hsymbols : ∀ entry ∈ symbols, isSpace entry.1 = false := by decide
  have hsigns : ∀ sign ∈ operatorSigns,
      isSpace sign.first = false ∧ isSpace sign.second = false := by
    decide
  have hpoint : Solid ['.'] := solid_singleton rfl
  cases h.spelling with
  | word hword => exact hword.solid
  | integer hdigits => exact hdigits.solid
  | double hwhole hfraction => exact hwhole.solid.append (hpoint.append hfraction.solid)
  | slash => exact solid_singleton rfl
  | symbol hmem => exact solid_singleton (hsymbols _ hmem)
  | short hsign => exact solid_singleton (hsigns _ hsign).1
  | long hsign =>
      exact (solid_singleton (hsigns _ hsign).1).append (solid_singleton (hsigns _ hsign).2)

/-- The lexeme of a fault is solid. -/
theorem LexicalError.Faults.solid {error : LexicalError} {lexeme rest : List Char}
    (h : error.Faults lexeme rest) : Solid lexeme := by
  cases error with
  | badCharacter c =>
      obtain ⟨rfl, hspace, -⟩ := h
      exact solid_singleton hspace
  | expected c =>
      obtain ⟨rfl, -⟩ := h
      exact solid_singleton rfl
  | malformedDouble =>
      obtain ⟨⟨digits, hdigits, rfl⟩, -⟩ := h
      exact hdigits.solid.append (solid_singleton rfl)

/-! ## Items and their places -/

namespace ScanItem

/-- The place of an item. -/
def span : ScanItem → Span
  | .ok token => token.span
  | .error error => error.span

/-- The lexemes that an item can be found for, by the text after them. -/
def Covers : ScanItem → List Char → List Char → Prop
  | .ok token, lexeme, rest => token.value.lexeme.toList = lexeme ∧
    token.value.kind.Spells lexeme ∧ Whole lexeme rest
  | .error error, lexeme, rest => error.value.Faults lexeme rest

/-- An item that stands for the middle part of a text that begins at the given place. -/
structure StandsFor (item : ScanItem) (position : Position) (before lexeme after : List Char) :
    Prop where
  covers : Covers item lexeme after
  span_eq : span item = Span.ofText (position.afterText before) lexeme

/-- The lexeme that an item stands for is solid. -/
theorem StandsFor.solid {item : ScanItem} {position : Position} {before lexeme after : List Char}
    (h : StandsFor item position before lexeme after) : Solid lexeme := by
  cases item with
  | ok token => exact h.covers.2.1.solid
  | error error => exact LexicalError.Faults.solid h.covers

end ScanItem

/-- **Every item stands for a part of the text.** -/
theorem Partition.standsFor {position : Position} {text : List Char} {items : List ScanItem}
    (h : Partition position text items) :
    ∀ item ∈ items, ∃ before lexeme after, text = before ++ (lexeme ++ after) ∧
      ScanItem.StandsFor item position before lexeme after := by
  -- What stands for a part of the rest stands for a part of the text.
  have hlater : ∀ (position : Position) (front rest : List Char) (item : ScanItem),
      (∃ before lexeme after, rest = before ++ (lexeme ++ after) ∧
        ScanItem.StandsFor item (position.afterText front) before lexeme after) →
      ∃ before lexeme after, front ++ rest = before ++ (lexeme ++ after) ∧
        ScanItem.StandsFor item position before lexeme after := by
    intro position front rest item hitem
    obtain ⟨before, lexeme, after, hrest, hstands⟩ := hitem
    refine ⟨front ++ before, lexeme, after, by rw [hrest, List.append_assoc], hstands.covers, ?_⟩
    rw [hstands.span_eq, Position.afterText_append]
  induction h with
  | last hgap => exact fun item hmem => (List.not_mem_nil hmem).elim
  | @token position gap lexeme rest kind items hgap hspells hwhole h ih =>
      refine List.forall_mem_cons.mpr ⟨?_, fun item hmem => ?_⟩
      · exact ⟨gap, lexeme, rest, rfl, ⟨String.toList_ofList, hspells, hwhole⟩, rfl⟩
      · exact hlater _ _ _ _ (hlater _ _ _ _ (ih item hmem))
  | @fault position gap lexeme rest error items hgap hfaults h ih =>
      refine List.forall_mem_cons.mpr ⟨⟨gap, lexeme, rest, rfl, hfaults, rfl⟩, fun item hmem => ?_⟩
      -- what is skipped after a fault is part of the text too
      have hrest := hlater _ _ _ _ (ih item hmem)
      rw [restOfLine_append_nextLine] at hrest
      exact hlater _ _ _ _ (hlater _ _ _ _ hrest)

/-- **How a text is divided.**  What scanning finds is the one division of the text
into gaps and lexemes; a text has tokens if its division has no fault.  Every item
stands for a part of the text, on a single line, and on that line the columns of its
span hold just this part; no line or column is beyond the number of characters. -/
theorem scan_divides_text (text : String) :
    (∀ items, scan text = items ↔ Partition {} text.toList items) ∧
    (∀ tokens, tokenize text = .ok tokens ↔ Partition {} text.toList (tokens.map .ok)) ∧
    ∀ name, ∀ item ∈ scan text, ∃ before lexeme after line,
      text.toList = before ++ (lexeme ++ after) ∧
      ScanItem.StandsFor item {} before lexeme after ∧
      (ScanItem.span item).first.line = (ScanItem.span item).last.line ∧
      (ScanItem.span item).last.line ≤ text.length ∧
      (ScanItem.span item).last.column ≤ text.length ∧
      (Source.mk name text).line? (ScanItem.span item).first.line = some line ∧
      (ScanItem.span item).cut line = lexeme := by
  refine ⟨fun items => partition_iff.symm, fun tokens => ?_, fun name item hmem => ?_⟩
  · rw [tokenize_eq_ok_iff, scan, partition_iff]
  · obtain ⟨before, lexeme, after, htext, hstands⟩ :=
      (partition_scanFrom {} text.toList).standsFor item hmem
    obtain ⟨hne, hspace⟩ := hstands.solid
    have hplain : ∀ c ∈ lexeme, c ≠ '\n' ∧ c ≠ '\r' := by
      intro c hc
      have hspace := hspace c hc
      constructor <;> (intro heq; subst heq; exact absurd hspace (by decide))
    obtain ⟨hline, index, line, hindex, hfound, hcut⟩ :=
      Span.exists_line hne hplain before after hstands.span_eq
    have hle := Span.last_le hne before after
    rw [← htext] at hfound hle
    rw [← hstands.span_eq, String.length_toList] at hle
    refine ⟨before, lexeme, after, String.ofList line, htext, hstands, hline, hle.1, hle.2, ?_,
      hcut⟩
    rw [hindex, Source.line?, Source.lines, List.getElem?_map, hfound]
    rfl

end AtomCompiler
