import AtomCompiler.Proofs.Lexemes

/-!
# How a piece is cut off

The first characters of a text settle what its first piece is, and the first
character of a token settles of what kind the token can be.  Both are said here once,
by the same two tables of signs.

* `TokenKind.Spells.head_cases` — everything that a token can begin with;
* `Piece.Cut` — everything that can be cut off a text, as a relation;
* `Piece.first_eq_iff` — it is the relation between a text and its first piece;
* `Whole` — a lexeme that the text after it makes no longer;
* `Piece.Cut.whole`, `Piece.cut_of_spells` — a piece that is a token is whole, and every
  whole lexeme is cut off as it stands.
-/

namespace AtomCompiler

/-! ## Signs -/

/-- The signs that stand for themselves, whatever follows. -/
def symbols : List (Char × TokenKind) :=
  [(';', .semicolon), ('(', .openParen), (')', .closeParen), ('\x7b', .openCurly),
    ('\x7d', .closeCurly), ('*', .times)]

/-- A sign that is a piece of its own, or else the first half of an operator of
two characters. -/
structure OperatorSign where
  first : Char
  short : PieceKind
  second : Char
  long : TokenKind
  deriving DecidableEq

/-- The signs that may be the first half of an operator. -/
def operatorSigns : List OperatorSign :=
  [⟨'=', .token .assign, '=', .equal⟩, ⟨'!', .fault (.expected '='), '=', .notEqual⟩,
    ⟨'<', .token .less, '=', .lessOrEqual⟩, ⟨'>', .token .greater, '=', .greaterOrEqual⟩,
    ⟨'+', .token .plus, '+', .increment⟩, ⟨'-', .token .minus, '-', .decrement⟩]

/-- A character that is no letter, no digit and no first half of an operator. -/
def standsAlone (c : Char) : Bool :=
  !c.isAlpha && !c.isDigit && operatorSigns.all fun sign => sign.first ≠ c

/-- No symbol begins a longer token. -/
theorem standsAlone_of_mem_symbols {c : Char} {kind : TokenKind} (h : (c, kind) ∈ symbols) :
    standsAlone c = true := by
  have hall : ∀ entry ∈ symbols, standsAlone entry.1 = true := by decide
  exact hall (c, kind) h

/-- No operator begins like a word or like a number. -/
theorem not_isAlpha_of_mem_operatorSigns {sign : OperatorSign} (h : sign ∈ operatorSigns) :
    sign.first.isAlpha = false ∧ sign.first.isDigit = false := by
  have hall : ∀ sign ∈ operatorSigns, sign.first.isAlpha = false ∧ sign.first.isDigit = false := by
    decide
  exact hall sign h

/-- The first character of an operator settles the operator. -/
theorem operatorSign_unique {sign other : OperatorSign} (h : sign ∈ operatorSigns)
    (hother : other ∈ operatorSigns) (heq : sign.first = other.first) : sign = other := by
  have hall : ∀ sign ∈ operatorSigns, ∀ other ∈ operatorSigns,
      sign.first = other.first → sign = other := by
    decide
  exact hall sign h other hother heq

/-! ## What a token is spelled like -/

/-- The spellings of tokens, by the same tables. -/
inductive Spelling : TokenKind → List Char → Prop
  | word {kind : TokenKind} {text : List Char} (h : IsWord text)
      (hkind : Piece.wordKind text = .token kind) : Spelling kind text
  | integer {text : List Char} (h : IsDigits text) : Spelling .integer text
  | double {whole fraction : List Char} (hwhole : IsDigits whole) (hfraction : IsDigits fraction) :
      Spelling .double (whole ++ '.' :: fraction)
  | slash : Spelling .divide ['/']
  | symbol {c : Char} {kind : TokenKind} (h : (c, kind) ∈ symbols) : Spelling kind [c]
  | short {sign : OperatorSign} {kind : TokenKind} (h : sign ∈ operatorSigns)
      (hshort : sign.short = .token kind) : Spelling kind [sign.first]
  | long {sign : OperatorSign} (h : sign ∈ operatorSigns) :
      Spelling sign.long [sign.first, sign.second]

/-- Letters go on with a word as well as begin one. -/
theorem isWordCharacter_of_isAlpha {c : Char} (h : c.isAlpha = true) :
    isWordCharacter c = true := by
  simp [isWordCharacter, Char.isAlphanum, h]

/-- Keywords are spelled as words. -/
theorem Keyword.isWord_spelling (word : Keyword) : IsWord word.spelling.toList := by
  have hletters : ∀ text : List Char, text ≠ [] → text.all Char.isAlpha = true → IsWord text := by
    intro text hne hall
    obtain ⟨c, rest, rfl⟩ := List.exists_cons_of_ne_nil hne
    have hall : ∀ d ∈ c :: rest, d.isAlpha = true := List.all_eq_true.mp hall
    exact ⟨hall c List.mem_cons_self,
      fun d hd => isWordCharacter_of_isAlpha (hall d (List.mem_cons_of_mem c hd))⟩
  cases word <;> exact hletters _ (by decide) (by decide)

/-- **Everything that a token can be spelled like.** -/
theorem TokenKind.Spells.spelling {kind : TokenKind} {text : List Char} (h : kind.Spells text) :
    Spelling kind text := by
  have hshort : ∀ sign ∈ operatorSigns, sign.short = .token kind → text = [sign.first] →
      Spelling kind text := by
    rintro sign hsign hkind rfl
    exact .short hsign hkind
  have hlong : ∀ sign ∈ operatorSigns, sign.long = kind → text = [sign.first, sign.second] →
      Spelling kind text := by
    rintro sign hsign rfl rfl
    exact .long hsign
  have hsymbol : ∀ c, (c, kind) ∈ symbols → text = [c] → Spelling kind text := by
    rintro c hmem rfl
    exact .symbol hmem
  cases kind with
  | identifier =>
      refine .word h.1 ?_
      rw [Piece.wordKind, h.2]
  | keyword word =>
      have htext : text = word.spelling.toList := by
        rw [← String.toList_ofList (l := text), h]
      refine .word (htext ▸ word.isWord_spelling) ?_
      rw [Piece.wordKind, Keyword.ofSpelling?_eq_some_iff.mpr h]
  | integer => exact .integer h
  | double =>
      obtain ⟨whole, fraction, rfl, hwhole, hfraction⟩ := h
      exact .double hwhole hfraction
  | assign => exact hshort ⟨'=', .token .assign, '=', .equal⟩ (by decide) rfl h
  | equal => exact hlong ⟨'=', .token .assign, '=', .equal⟩ (by decide) rfl h
  | notEqual => exact hlong ⟨'!', .fault (.expected '='), '=', .notEqual⟩ (by decide) rfl h
  | less => exact hshort ⟨'<', .token .less, '=', .lessOrEqual⟩ (by decide) rfl h
  | lessOrEqual => exact hlong ⟨'<', .token .less, '=', .lessOrEqual⟩ (by decide) rfl h
  | greater => exact hshort ⟨'>', .token .greater, '=', .greaterOrEqual⟩ (by decide) rfl h
  | greaterOrEqual => exact hlong ⟨'>', .token .greater, '=', .greaterOrEqual⟩ (by decide) rfl h
  | plus => exact hshort ⟨'+', .token .plus, '+', .increment⟩ (by decide) rfl h
  | minus => exact hshort ⟨'-', .token .minus, '-', .decrement⟩ (by decide) rfl h
  | increment => exact hlong ⟨'+', .token .plus, '+', .increment⟩ (by decide) rfl h
  | decrement => exact hlong ⟨'-', .token .minus, '-', .decrement⟩ (by decide) rfl h
  | times => exact hsymbol '*' (by decide) h
  | divide =>
      obtain rfl : text = ['/'] := h
      exact .slash
  | semicolon => exact hsymbol ';' (by decide) h
  | openParen => exact hsymbol '(' (by decide) h
  | closeParen => exact hsymbol ')' (by decide) h
  | openCurly => exact hsymbol '\x7b' (by decide) h
  | closeCurly => exact hsymbol '\x7d' (by decide) h

theorem IsDigits.head {c : Char} {text : List Char} (h : IsDigits (c :: text)) :
    c.isDigit = true :=
  h.2 c List.mem_cons_self

theorem IsDigits.tail {c : Char} {text : List Char} (h : IsDigits (c :: text)) :
    ∀ d ∈ text, d.isDigit = true :=
  (List.forall_mem_cons.mp h.2).2

/-- The whole digits of a double come first. -/
theorem IsDigits.head_of_append {whole fraction text : List Char} {c : Char}
    (h : IsDigits whole) (heq : whole ++ '.' :: fraction = c :: text) : c.isDigit = true := by
  obtain ⟨d, rest, rfl⟩ := List.exists_cons_of_ne_nil h.1
  obtain ⟨rfl, -⟩ := List.cons.inj heq
  exact h.head

/-- A sign of the tables is no letter and no digit. -/
theorem standsAlone_iff {c : Char} : standsAlone c = true ↔
    c.isAlpha = false ∧ c.isDigit = false ∧ ∀ sign ∈ operatorSigns, sign.first ≠ c := by
  simp [standsAlone, and_assoc]

namespace TokenKind.Spells

variable {kind : TokenKind} {text : List Char} {c d : Char}

/-- **Everything that a token can begin with:** the letter of a word, the digit of a
number, or a sign of the tables. -/
theorem head_cases (h : kind.Spells (c :: text)) :
    (c.isAlpha = true ∧ IsWord (c :: text)) ∨
    (c.isDigit = true ∧ (IsDigits (c :: text) ∨ ∃ whole fraction,
      c :: text = whole ++ '.' :: fraction ∧ IsDigits whole ∧ IsDigits fraction)) ∨
    (c.isAlpha = false ∧ c.isDigit = false ∧
      (text = [] ∧ (c = '/' ∨ ∃ kind, (c, kind) ∈ symbols) ∨
        ∃ sign ∈ operatorSigns, sign.first = c ∧ (text = [] ∨ text = [sign.second]))) := by
  generalize htext : c :: text = whole at h
  cases h.spelling with
  | word hword =>
      have halpha : c.isAlpha = true := (htext ▸ hword : IsWord (c :: text)).1
      exact .inl ⟨halpha, hword⟩
  | integer hdigits => exact .inr (.inl ⟨(htext ▸ hdigits).head, .inl hdigits⟩)
  | double hwhole hfraction =>
      exact .inr (.inl ⟨hwhole.head_of_append htext.symm, .inr ⟨_, _, rfl, hwhole, hfraction⟩⟩)
  | slash =>
      obtain ⟨rfl, rfl⟩ := List.cons.inj htext
      exact .inr (.inr ⟨rfl, rfl, .inl ⟨rfl, .inl rfl⟩⟩)
  | symbol hmem =>
      obtain ⟨rfl, rfl⟩ := List.cons.inj htext
      obtain ⟨halpha, hdigit, -⟩ := standsAlone_iff.mp (standsAlone_of_mem_symbols hmem)
      exact .inr (.inr ⟨halpha, hdigit, .inl ⟨rfl, .inr ⟨_, hmem⟩⟩⟩)
  | short hsign =>
      obtain ⟨rfl, rfl⟩ := List.cons.inj htext
      obtain ⟨halpha, hdigit⟩ := not_isAlpha_of_mem_operatorSigns hsign
      exact .inr (.inr ⟨halpha, hdigit, .inr ⟨_, hsign, rfl, .inl rfl⟩⟩)
  | long hsign =>
      obtain ⟨rfl, rfl⟩ := List.cons.inj htext
      obtain ⟨halpha, hdigit⟩ := not_isAlpha_of_mem_operatorSigns hsign
      exact .inr (.inr ⟨halpha, hdigit, .inr ⟨_, hsign, rfl, .inr rfl⟩⟩)

/-- A token that begins with a letter is a word. -/
theorem isWord_of_isAlpha (h : kind.Spells (c :: text)) (hc : c.isAlpha = true) :
    IsWord (c :: text) := by
  rcases h.head_cases with ⟨-, hword⟩ | ⟨hdigit, -⟩ | ⟨halpha, -⟩
  · exact hword
  · simp [(not_isDigit_of_isAlpha hc).1] at hdigit
  · simp [hc] at halpha

/-- A token that begins with a digit is a number. -/
theorem number_of_isDigit (h : kind.Spells (c :: text)) (hc : c.isDigit = true) :
    IsDigits (c :: text) ∨ ∃ whole fraction, c :: text = whole ++ '.' :: fraction ∧
      IsDigits whole ∧ IsDigits fraction := by
  rcases h.head_cases with ⟨halpha, -⟩ | ⟨-, hnumber⟩ | ⟨-, hdigit, -⟩
  · simp [(not_isDigit_of_isAlpha halpha).1] at hc
  · exact hnumber
  · simp [hc] at hdigit

/-- Any other token of more than one character is an operator of two. -/
theorem operator_of_cons_cons (h : kind.Spells (c :: d :: text)) (halpha : c.isAlpha = false)
    (hdigit : c.isDigit = false) :
    ∃ sign ∈ operatorSigns, sign.first = c ∧ sign.second = d ∧ text = [] := by
  rcases h.head_cases with ⟨hc, -⟩ | ⟨hc, -⟩ | ⟨-, -, ⟨hnil, -⟩ | ⟨sign, hsign, hfirst, htext⟩⟩
  · simp [halpha] at hc
  · simp [hdigit] at hc
  · cases hnil
  · rcases htext with hnil | hsecond
    · cases hnil
    · obtain ⟨hd, hnil⟩ := List.cons.inj hsecond
      exact ⟨sign, hsign, hfirst, hd.symm, hnil⟩

end TokenKind.Spells

/-! ## Whole lexemes -/

/-- The character after a lexeme makes it neither a longer token or the beginning
of one, nor the two slashes of a comment. -/
def Whole (lexeme rest : List Char) : Prop :=
  ∀ c, rest.head? = some c →
    (¬∃ (kind : TokenKind) (more : List Char), kind.Spells (lexeme ++ c :: more)) ∧
      lexeme ++ [c] ≠ ['/', '/']

/-- A text that does not go on with a character of the given kind. -/
def Stops (p : Char → Bool) (rest : List Char) : Prop :=
  ∀ c, rest.head? = some c → p c = false

/-- What is left after a run does not go on with it. -/
theorem stops_dropWhile (p : Char → Bool) (text : List Char) : Stops p (text.dropWhile p) := by
  intro c hc
  have hnot := List.head?_dropWhile_not p text
  rwa [hc] at hnot

/-- A run is taken up to where it stops. -/
theorem takeWhile_of_stops {p : Char → Bool} {word rest : List Char}
    (hword : ∀ c ∈ word, p c = true) (hrest : Stops p rest) :
    (word ++ rest).takeWhile p = word := by
  rw [List.takeWhile_append_of_pos hword]
  cases rest with
  | nil => simp
  | cons c rest => simp [hrest c rfl]

/-- What stops a run is left. -/
theorem dropWhile_of_stops {p : Char → Bool} {word rest : List Char}
    (hword : ∀ c ∈ word, p c = true) (hrest : Stops p rest) :
    (word ++ rest).dropWhile p = rest := by
  rw [List.dropWhile_append_of_pos hword]
  cases rest with
  | nil => simp
  | cons c rest => simp [hrest c rfl]

/-- No character of a row without newlines is one, as the scanner asks it. -/
theorem ne_newline_of_not_mem {row : List Char} (h : '\n' ∉ row) :
    ∀ c ∈ row, (c != '\n') = true := by
  intro c hc
  have hne : c ≠ '\n' := fun heq => h (heq ▸ hc)
  simpa using hne

/-- A comment is taken up to the newline and not with it. -/
theorem not_mem_takeWhile_newline (text : List Char) : '\n' ∉ text.takeWhile (· != '\n') := by
  intro hmem
  exact absurd (List.all_eq_true.mp List.all_takeWhile _ hmem) (by decide)

/-- A symbol is whole whatever follows, but for a slash before another one. -/
theorem whole_of_standsAlone {c : Char} {rest : List Char} (h : standsAlone c = true)
    (hslash : c = '/' → rest.head? ≠ some '/') : Whole [c] rest := by
  obtain ⟨halpha, hdigit, hsigns⟩ := standsAlone_iff.mp h
  intro d hd
  constructor
  · rintro ⟨kind, more, hspells⟩
    obtain ⟨sign, hsign, hfirst, -⟩ := hspells.operator_of_cons_cons halpha hdigit
    exact hsigns sign hsign hfirst
  · intro heq
    simp only [List.singleton_append, List.cons.injEq, and_true] at heq
    exact hslash heq.1 (heq.2 ▸ hd)

/-- An operator of one character is whole if the second one does not follow. -/
theorem whole_short {sign : OperatorSign} (h : sign ∈ operatorSigns) {rest : List Char}
    (hrest : rest.head? ≠ some sign.second) : Whole [sign.first] rest := by
  obtain ⟨halpha, hdigit⟩ := not_isAlpha_of_mem_operatorSigns h
  have hslash : ∀ sign ∈ operatorSigns, sign.first ≠ '/' := by decide
  intro d hd
  constructor
  · rintro ⟨kind, more, hspells⟩
    obtain ⟨other, hother, hfirst, rfl, -⟩ := hspells.operator_of_cons_cons halpha hdigit
    exact hrest (operatorSign_unique hother h hfirst ▸ hd)
  · intro heq
    exact hslash sign h (List.cons.inj heq).1

/-- An operator of two characters is whole whatever follows. -/
theorem whole_long {sign : OperatorSign} (h : sign ∈ operatorSigns) (rest : List Char) :
    Whole [sign.first, sign.second] rest := by
  obtain ⟨halpha, hdigit⟩ := not_isAlpha_of_mem_operatorSigns h
  intro d hd
  constructor
  · rintro ⟨kind, more, hspells⟩
    obtain ⟨other, -, -, -, hnil⟩ := hspells.operator_of_cons_cons halpha hdigit
    cases hnil
  · simp

/-- A word is whole where no character of a word follows. -/
theorem whole_word {c : Char} {text rest : List Char} (h : c.isAlpha = true)
    (hrest : Stops isWordCharacter rest) : Whole (c :: text) rest := by
  intro d hd
  constructor
  · rintro ⟨kind, more, hspells⟩
    have hword := hspells.isWord_of_isAlpha h
    have hd' : isWordCharacter d = true := hword.2 d (by simp)
    simp [hrest d hd] at hd'
  · intro heq
    obtain ⟨rfl, -⟩ := List.cons.inj heq
    exact absurd h (by decide)

/-- Where a row of characters of one kind ends is settled by the text. -/
theorem append_cons_inj_of_stops {p : Char → Bool} {first second rest more : List Char} {c d : Char}
    (hfirst : ∀ e ∈ first, p e = true) (hsecond : ∀ e ∈ second, p e = true) (hc : p c = false)
    (hd : p d = false) (h : first ++ c :: rest = second ++ d :: more) :
    first = second ∧ c = d ∧ rest = more := by
  have hstops : ∀ e text, p e = false → Stops p (e :: text) := by
    intro e text he d hd
    obtain rfl := Option.some.inj hd
    exact he
  have heq : first = second := by
    rw [← takeWhile_of_stops hfirst (hstops c rest hc), h,
      takeWhile_of_stops hsecond (hstops d more hd)]
  subst heq
  exact ⟨rfl, List.cons.inj (List.append_cancel_left h)⟩

/-- An integer is whole where neither a digit nor a point follows. -/
theorem whole_integer {text rest : List Char} (h : IsDigits text)
    (hrest : Stops Char.isDigit rest) (hpoint : rest.head? ≠ some '.') : Whole text rest := by
  obtain ⟨c, tail, rfl⟩ := List.exists_cons_of_ne_nil h.1
  intro d hd
  constructor
  · rintro ⟨kind, more, hspells⟩
    rcases hspells.number_of_isDigit h.head with hdigits | ⟨whole, fraction, heq, hwhole, -⟩
    · have hd' : d.isDigit = true := hdigits.2 d (by simp)
      simp [hrest d hd] at hd'
    · have hinj := append_cons_inj_of_stops h.2 hwhole.2 (hrest d hd) (by decide) heq
      exact hpoint (hinj.2.1 ▸ hd)
  · intro heq
    obtain ⟨rfl, -⟩ := List.cons.inj heq
    exact absurd h.head (by decide)

/-- A number with a point is whole where no digit follows. -/
theorem whole_double {whole fraction rest : List Char} (h : IsDigits whole)
    (hrest : Stops Char.isDigit rest) : Whole (whole ++ '.' :: fraction) rest := by
  obtain ⟨c, tail, rfl⟩ := List.exists_cons_of_ne_nil h.1
  intro d hd
  constructor
  · rintro ⟨kind, more, hspells⟩
    rw [List.append_assoc, List.cons_append] at hspells
    rcases hspells.number_of_isDigit h.head with hdigits | ⟨whole', fraction', heq, hwhole, hmore⟩
    · exact absurd (hdigits.2 '.' (by simp)) (by decide)
    · obtain ⟨-, -, rfl⟩ :=
        append_cons_inj_of_stops h.2 hwhole.2 (by decide) (by decide) heq
      have hd' : d.isDigit = true := hmore.2 d (by simp)
      simp [hrest d hd] at hd'
  · intro heq
    obtain ⟨rfl, -⟩ := List.cons.inj heq
    exact absurd h.head (by decide)

/-! ## Pieces -/

namespace Piece

/-- Everything that can be cut off a text, by its first character and the text after
it. -/
inductive Cut : Char → List Char → Piece → Prop
  | symbol {c : Char} {kind : TokenKind} (h : (c, kind) ∈ symbols) (rest : List Char) :
      Cut c rest ⟨.token kind, [c], rest⟩
  | divide {rest : List Char} (h : rest.head? ≠ some '/') :
      Cut '/' rest ⟨.token .divide, ['/'], rest⟩
  | comment {body rest : List Char} (hbody : '\n' ∉ body) (hrest : Stops (· != '\n') rest) :
      Cut '/' ('/' :: (body ++ rest)) ⟨.gap, '/' :: '/' :: body, rest⟩
  | short {sign : OperatorSign} {rest : List Char} (h : sign ∈ operatorSigns)
      (hrest : rest.head? ≠ some sign.second) :
      Cut sign.first rest ⟨sign.short, [sign.first], rest⟩
  | long {sign : OperatorSign} (h : sign ∈ operatorSigns) (rest : List Char) :
      Cut sign.first (sign.second :: rest) ⟨.token sign.long, [sign.first, sign.second], rest⟩
  | word {c : Char} {tail rest : List Char} (h : IsWord (c :: tail))
      (hrest : Stops isWordCharacter rest) :
      Cut c (tail ++ rest) ⟨wordKind (c :: tail), c :: tail, rest⟩
  | integer {c : Char} {tail rest : List Char} (h : IsDigits (c :: tail))
      (hrest : Stops Char.isDigit rest) (hpoint : rest.head? ≠ some '.') :
      Cut c (tail ++ rest) ⟨.token .integer, c :: tail, rest⟩
  | double {c : Char} {tail fraction rest : List Char} (h : IsDigits (c :: tail))
      (hfraction : IsDigits fraction) (hrest : Stops Char.isDigit rest) :
      Cut c (tail ++ '.' :: (fraction ++ rest))
        ⟨.token .double, c :: tail ++ '.' :: fraction, rest⟩
  | malformed {c : Char} {tail rest : List Char} (h : IsDigits (c :: tail))
      (hrest : Stops Char.isDigit rest) :
      Cut c (tail ++ '.' :: rest) ⟨.fault .malformedDouble, c :: tail ++ ['.'], rest⟩
  | blank {c : Char} (h : isSpace c = true) (rest : List Char) : Cut c rest ⟨.gap, [c], rest⟩
  | bad {c : Char} (halone : standsAlone c = true) (hsymbol : ∀ kind, (c, kind) ∉ symbols)
      (hslash : c ≠ '/') (hspace : isSpace c = false) (rest : List Char) :
      Cut c rest ⟨.fault (.badCharacter c), [c], rest⟩

variable {c : Char} {rest : List Char} {kind : TokenKind}

/-- A slash is a division unless another slash follows. -/
theorem slash_divide (h : rest.head? ≠ some '/') :
    slash c rest = single (.token .divide) c rest := by
  unfold slash
  split
  · exact (h rfl).elim
  · rfl

/-- Without its second character an operator is the short one. -/
theorem operator_short {short long : PieceKind} {second : Char}
    (h : rest.head? ≠ some second) : operator short second long c rest = ⟨short, [c], rest⟩ := by
  cases rest with
  | nil => rfl
  | cons d rest =>
      have hd : d ≠ second := by simpa using h
      rw [operator, if_neg hd]

/-- With its second character an operator is the long one. -/
theorem operator_long (short long : PieceKind) (c second : Char) (rest : List Char) :
    operator short second long c (second :: rest) = ⟨long, [c, second], rest⟩ := by
  rw [operator, if_pos rfl]

/-- Digits without a point are an integer. -/
theorem number_integer {tail : List Char} (htail : ∀ d ∈ tail, d.isDigit = true)
    (hrest : Stops Char.isDigit rest) (hpoint : rest.head? ≠ some '.') :
    number c (tail ++ rest) = ⟨.token .integer, c :: tail, rest⟩ := by
  unfold number
  rw [dropWhile_of_stops htail hrest, takeWhile_of_stops htail hrest]
  split
  · exact (hpoint rfl).elim
  · rfl

/-- Digits, a point and digits are a number, and a fault if there are no digits behind the point.
-/
theorem number_double {tail fraction : List Char} (htail : ∀ d ∈ tail, d.isDigit = true)
    (hfraction : ∀ d ∈ fraction, d.isDigit = true) (hrest : Stops Char.isDigit rest) :
    number c (tail ++ '.' :: (fraction ++ rest)) =
      ⟨if fraction = [] then .fault .malformedDouble else .token .double,
        c :: tail ++ '.' :: fraction, rest⟩ := by
  have hpoint : Stops Char.isDigit ('.' :: (fraction ++ rest)) := by
    intro d hd
    obtain rfl := Option.some.inj hd
    decide
  unfold number
  rw [dropWhile_of_stops htail hpoint, takeWhile_of_stops htail hpoint]
  simp only [dropWhile_of_stops hfraction hrest, takeWhile_of_stops hfraction hrest]

/-- What is cut off at a slash is a division or a comment. -/
theorem cut_slash (rest : List Char) : Cut '/' rest (slash '/' rest) := by
  by_cases hslash : rest.head? = some '/'
  · obtain ⟨body, rfl⟩ := List.head?_eq_some_iff.mp hslash
    have hcut := Cut.comment (not_mem_takeWhile_newline body) (stops_dropWhile (· != '\n') body)
    rw [List.takeWhile_append_dropWhile] at hcut
    exact hcut
  · rw [slash_divide hslash]
    exact .divide hslash

/-- What is cut off at an operator is the longer one if it stands there. -/
theorem cut_operator {sign : OperatorSign} (h : sign ∈ operatorSigns) (rest : List Char) :
    Cut sign.first rest
      (operator sign.short sign.second (.token sign.long) sign.first rest) := by
  by_cases hsecond : rest.head? = some sign.second
  · obtain ⟨more, rfl⟩ := List.head?_eq_some_iff.mp hsecond
    rw [operator_long]
    exact .long h more
  · rw [operator_short hsecond]
    exact .short h hsecond

/-- What is cut off at a letter is a whole word. -/
theorem cut_word (h : c.isAlpha = true) (rest : List Char) :
    Cut c rest (run wordKind isWordCharacter c rest) := by
  have hword : IsWord (c :: rest.takeWhile isWordCharacter) :=
    ⟨h, fun d hd => List.all_eq_true.mp List.all_takeWhile d hd⟩
  have hcut := Cut.word hword (stops_dropWhile isWordCharacter rest)
  rw [List.takeWhile_append_dropWhile] at hcut
  exact hcut

/-- What is cut off at a digit is a whole number, or a fault up to where its digits end. -/
theorem cut_number (h : c.isDigit = true) (rest : List Char) : Cut c rest (number c rest) := by
  have hwhole := isDigits_takeWhile h rest
  have hrest := List.takeWhile_append_dropWhile (p := Char.isDigit) (l := rest)
  unfold number
  split
  · next afterPoint hpoint =>
      rw [hpoint] at hrest
      have hstops := stops_dropWhile Char.isDigit afterPoint
      have hafter := List.takeWhile_append_dropWhile (p := Char.isDigit) (l := afterPoint)
      by_cases hfraction : afterPoint.takeWhile Char.isDigit = []
      · rw [hfraction, List.nil_append] at hafter
        simp only [hfraction, if_true]
        have hcut := Cut.malformed hwhole hstops
        rw [hafter, hrest] at hcut
        rw [hafter]
        exact hcut
      · have hdigits : IsDigits (afterPoint.takeWhile Char.isDigit) :=
          ⟨hfraction, fun d hd => List.all_eq_true.mp List.all_takeWhile d hd⟩
        have hcut := Cut.double hwhole hdigits hstops
        rw [hafter, hrest] at hcut
        simp only [if_neg hfraction]
        exact hcut
  · next hpoint =>
      have hcut := Cut.integer hwhole (stops_dropWhile Char.isDigit rest) ?_
      · rw [hrest] at hcut
        exact hcut
      · intro hhead
        obtain ⟨afterPoint, hafter⟩ := List.head?_eq_some_iff.mp hhead
        exact hpoint afterPoint hafter

/-- **The first piece of a text is cut off it.** -/
theorem cut_first (c : Char) (rest : List Char) : Cut c rest (first c rest) := by
  have hsign : ∀ sign ∈ operatorSigns, Cut sign.first rest
      (operator sign.short sign.second (.token sign.long) sign.first rest) :=
    fun _ h => cut_operator h rest
  unfold first
  split
  · exact .symbol (by decide) rest
  · exact .symbol (by decide) rest
  · exact .symbol (by decide) rest
  · exact .symbol (by decide) rest
  · exact .symbol (by decide) rest
  · exact .symbol (by decide) rest
  · exact cut_slash rest
  · exact hsign ⟨'=', .token .assign, '=', .equal⟩ (by decide)
  · exact hsign ⟨'!', .fault (.expected '='), '=', .notEqual⟩ (by decide)
  · exact hsign ⟨'<', .token .less, '=', .lessOrEqual⟩ (by decide)
  · exact hsign ⟨'>', .token .greater, '=', .greaterOrEqual⟩ (by decide)
  · exact hsign ⟨'+', .token .plus, '+', .increment⟩ (by decide)
  · exact hsign ⟨'-', .token .minus, '-', .decrement⟩ (by decide)
  · split
    · next h => exact cut_word h rest
    · split
      · next h => exact cut_number h rest
      · split
        · next h => exact .blank h rest
        · next halpha hdigit hspace =>
            -- none of the signs above, so the character stands in neither table
            refine .bad ?_ ?_ (by assumption) (by simpa using hspace) rest
            · simp_all [standsAlone, operatorSigns]
              grind
            · simp_all [symbols]

/-- A symbol is cut off alone. -/
theorem first_symbol (h : (c, kind) ∈ symbols) : first c = single (.token kind) c := by
  have hall : ∀ entry ∈ symbols, first entry.1 = single (.token entry.2) entry.1 := by
    simp only [symbols, List.forall_mem_cons]
    exact ⟨rfl, rfl, rfl, rfl, rfl, rfl, by simp⟩
  exact hall (c, kind) h

/-- The first character of an operator is looked at with the second. -/
theorem first_operator {sign : OperatorSign} (h : sign ∈ operatorSigns) :
    first sign.first = operator sign.short sign.second (.token sign.long) sign.first := by
  revert sign
  simp only [operatorSigns, List.forall_mem_cons]
  exact ⟨rfl, rfl, rfl, rfl, rfl, rfl, by simp⟩

/-- A blank is cut off alone, as a gap. -/
theorem first_blank (h : isSpace c = true) : first c = single .gap c := by
  simp only [isSpace, Bool.or_eq_true, decide_eq_true_eq] at h
  rcases h with (((rfl | rfl) | rfl) | rfl) | rfl <;> rfl

/-- A letter begins a word, since no symbol, operator or blank is a letter. -/
theorem first_word (h : c.isAlpha = true) : first c rest = run wordKind isWordCharacter c rest := by
  unfold first
  split
  all_goals first
    | exact absurd h (by decide)
    | rw [if_pos h]

/-- A digit begins a number, since none of the others is a digit. -/
theorem first_number (h : c.isDigit = true) : first c rest = number c rest := by
  have halpha : ¬c.isAlpha = true := by
    intro halpha
    simp [(not_isDigit_of_isAlpha halpha).1] at h
  unfold first
  split
  all_goals first
    | exact absurd h (by decide)
    | rw [if_neg halpha, if_pos h]

/-- Nothing else is cut off in place of a bad character. -/
theorem first_bad (halone : standsAlone c = true) (hsymbol : ∀ kind, (c, kind) ∉ symbols)
    (hslash : c ≠ '/') (hspace : isSpace c = false) (rest : List Char) :
    first c rest = ⟨.fault (.badCharacter c), [c], rest⟩ := by
  obtain ⟨halpha, hdigit, hsigns⟩ := standsAlone_iff.mp halone
  have hcut := cut_first c rest
  generalize first c rest = piece at hcut
  cases hcut with
  | symbol hmem => exact (hsymbol _ hmem).elim
  | divide => exact (hslash rfl).elim
  | comment => exact (hslash rfl).elim
  | short hsign => exact (hsigns _ hsign rfl).elim
  | long hsign => exact (hsigns _ hsign rfl).elim
  | word hword => simp [hword.1] at halpha
  | integer hdigits => simp [hdigits.head] at hdigit
  | double hdigits => simp [hdigits.head] at hdigit
  | malformed hdigits => simp [hdigits.head] at hdigit
  | blank hblank => simp [hspace] at hblank
  | bad => rfl

/-- **What can be cut off a text is its first piece.** -/
theorem Cut.first_eq {piece : Piece} (h : Cut c rest piece) : first c rest = piece := by
  cases h with
  | symbol hmem => rw [first_symbol hmem]; rfl
  | divide hslash => exact slash_divide hslash
  | comment hbody hrest =>
      have hbody := ne_newline_of_not_mem hbody
      have hslash : ∀ text, first '/' text = slash '/' text := fun _ => rfl
      rw [hslash, slash, restOfLine, nextLine, takeWhile_of_stops hbody hrest,
        dropWhile_of_stops hbody hrest]
  | short hsign hsecond => rw [first_operator hsign, operator_short hsecond]
  | long hsign => rw [first_operator hsign, operator_long]
  | word hword hstops =>
      rw [first_word hword.1, run, takeWhile_of_stops hword.2 hstops,
        dropWhile_of_stops hword.2 hstops]
  | integer hdigits hstops hpoint =>
      rw [first_number hdigits.head, number_integer hdigits.tail hstops hpoint]
  | double hdigits hfraction hstops =>
      rw [first_number hdigits.head, number_double hdigits.tail hfraction.2 hstops,
        if_neg hfraction.1]
  | @malformed _ tail rest hdigits hstops =>
      have hnumber : number c (tail ++ '.' :: ([] ++ rest)) =
          ⟨.fault .malformedDouble, c :: tail ++ ['.'], rest⟩ :=
        number_double hdigits.tail (fun d hd => by cases hd) hstops
      rw [first_number hdigits.head]
      exact hnumber
  | blank hblank => rw [first_blank hblank]; rfl
  | bad halone hsymbol hslash hspace => exact first_bad halone hsymbol hslash hspace _

/-- **The first piece of a text, as a relation.** -/
theorem first_eq_iff {piece : Piece} : first c rest = piece ↔ Cut c rest piece := by
  constructor
  · intro h
    subst h
    exact cut_first c rest
  · exact Cut.first_eq

/-- **A piece that is a token is whole.** -/
theorem Cut.whole {piece : Piece} (h : Cut c rest piece) (hkind : piece.kind = .token kind) :
    Whole piece.lexeme piece.rest := by
  cases h with
  | symbol hmem =>
      refine whole_of_standsAlone (standsAlone_of_mem_symbols hmem) fun hslash => ?_
      subst hslash
      simp [symbols] at hmem
  | divide hslash => exact whole_of_standsAlone (by decide) fun _ => hslash
  | comment => cases hkind
  | short hsign hsecond => exact whole_short hsign hsecond
  | long hsign => exact whole_long hsign _
  | word hword hstops => exact whole_word hword.1 hstops
  | integer hdigits hstops hpoint => exact whole_integer hdigits hstops hpoint
  | double hdigits hfraction hstops => exact whole_double hdigits hstops
  | malformed => cases hkind
  | blank => cases hkind
  | bad => cases hkind

end Piece

/-! ## Whole lexemes are cut off -/

/-- A word is an identifier or a keyword. -/
theorem IsWord.exists_spells {text : List Char} (h : IsWord text) :
    ∃ kind : TokenKind, kind.Spells text := by
  cases hword : Keyword.ofSpelling? (String.ofList text) with
  | none => exact ⟨.identifier, h, hword⟩
  | some word => exact ⟨.keyword word, Keyword.ofSpelling?_eq_some_iff.mp hword⟩

/-- One digit more makes digits again. -/
theorem IsDigits.concat {text : List Char} (h : IsDigits text) {c : Char} (hc : c.isDigit = true) :
    IsDigits (text ++ [c]) := by
  refine ⟨by simp, fun d hd => ?_⟩
  rcases List.mem_append.mp hd with hd | hd
  · exact h.2 d hd
  · exact List.mem_singleton.mp hd ▸ hc

namespace Whole

variable {text rest : List Char}

/-- A whole word does not go on. -/
theorem stops_word (hwhole : Whole text rest) (h : IsWord text) : Stops isWordCharacter rest := by
  intro d hd
  refine Bool.eq_false_iff.mpr fun hword => (hwhole d hd).1 ?_
  have hlonger : IsWord (text ++ [d]) := by
    cases text with
    | nil => exact h.elim
    | cons c tail =>
        refine ⟨h.1, fun e he => ?_⟩
        rcases List.mem_append.mp he with he | he
        · exact h.2 e he
        · exact List.mem_singleton.mp he ▸ hword
  obtain ⟨kind, hspells⟩ := hlonger.exists_spells
  exact ⟨kind, [], hspells⟩

/-- After a whole row of digits comes neither a digit nor a point. -/
theorem stops_integer (hwhole : Whole text rest) (h : IsDigits text) :
    Stops Char.isDigit rest ∧ rest.head? ≠ some '.' := by
  constructor
  · intro d hd
    refine Bool.eq_false_iff.mpr fun hdigit => (hwhole d hd).1 ?_
    exact ⟨.integer, [], h.concat hdigit⟩
  · intro hpoint
    refine (hwhole '.' hpoint).1 ⟨.double, ['0'], text, ['0'], rfl, h, ?_⟩
    exact ⟨by simp, by simp⟩

/-- No digit follows a number with a fraction that is whole, since it would go on. -/
theorem stops_double {whole fraction : List Char} (hwhole : Whole (whole ++ '.' :: fraction) rest)
    (h : IsDigits whole) (hfraction : IsDigits fraction) : Stops Char.isDigit rest := by
  intro d hd
  refine Bool.eq_false_iff.mpr fun hdigit => (hwhole d hd).1 ?_
  exact ⟨.double, [], whole, fraction ++ [d], by simp, h, hfraction.concat hdigit⟩

end Whole

/-- The long spelling of an operator belongs to it. -/
theorem spells_of_mem_operatorSigns {sign : OperatorSign} (h : sign ∈ operatorSigns) :
    sign.long.Spells [sign.first, sign.second] := by
  revert sign
  simp only [operatorSigns, List.forall_mem_cons]
  exact ⟨rfl, rfl, rfl, rfl, rfl, rfl, by simp⟩

/-- **Every whole lexeme is cut off as it stands.** -/
theorem Piece.cut_of_spells {kind : TokenKind} {lexeme rest : List Char}
    (h : kind.Spells lexeme) (hwhole : Whole lexeme rest) :
    ∃ c tail, lexeme = c :: tail ∧ Cut c (tail ++ rest) ⟨.token kind, lexeme, rest⟩ := by
  cases h.spelling with
  | word hword hkind =>
      obtain ⟨c, tail, rfl⟩ := List.exists_cons_of_ne_nil (l := lexeme) (by rintro rfl; exact hword)
      have hcut := Cut.word hword (hwhole.stops_word hword)
      rw [hkind] at hcut
      exact ⟨c, tail, rfl, hcut⟩
  | integer hdigits =>
      obtain ⟨c, tail, rfl⟩ := List.exists_cons_of_ne_nil hdigits.1
      obtain ⟨hstops, hpoint⟩ := hwhole.stops_integer hdigits
      exact ⟨c, tail, rfl, .integer hdigits hstops hpoint⟩
  | @double whole fraction hdigits hfraction =>
      obtain ⟨c, tail, rfl⟩ := List.exists_cons_of_ne_nil hdigits.1
      refine ⟨c, tail ++ '.' :: fraction, rfl, ?_⟩
      rw [List.append_assoc, List.cons_append]
      exact .double hdigits hfraction (hwhole.stops_double hdigits hfraction)
  | slash =>
      have hslash : rest.head? ≠ some '/' := fun hhead => (hwhole '/' hhead).2 rfl
      exact ⟨'/', [], rfl, .divide hslash⟩
  | symbol hmem => exact ⟨_, [], rfl, .symbol hmem rest⟩
  | short hsign hshort =>
      have hsecond : rest.head? ≠ some _ := fun hhead =>
        (hwhole _ hhead).1 ⟨_, [], spells_of_mem_operatorSigns hsign⟩
      exact ⟨_, [], rfl, hshort ▸ .short hsign hsecond⟩
  | long hsign => exact ⟨_, [_], rfl, .long hsign rest⟩

end AtomCompiler
