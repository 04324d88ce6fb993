import AtomCompiler.Source
import AtomCompiler.Text.Quoted
import AtomCompiler.Token.Basic

/-!
# Scanning

A program text is cut from the left into *pieces*: blanks and comments, which
are skipped, lexemes of tokens, and faulty lexemes.  After a fault the rest of
its line is skipped, so a line has at most one.

* `Piece.first_begins` — cutting off a piece loses nothing and always makes
  progress, which is why scanning ends.
-/

namespace AtomCompiler

/-- What can be wrong with a program's characters. -/
inductive LexicalError where
  | badCharacter (c : Char)
  | expected (c : Char)
  | malformedDouble
  deriving DecidableEq, Repr

/-- The wording of a lexical error. -/
def LexicalError.message : LexicalError → String
  | badCharacter c => s!"Bad character {Text.quoted c} in input stream"
  | expected c => s!"Expected {Text.quoted c}"
  | malformedDouble => "Double literal requires at least one digit after the decimal point"

/-- The blanks between tokens: space, tab, newline, form feed and carriage
return. -/
def isSpace (c : Char) : Bool :=
  c = ' ' || c = '\t' || c = '\n' || c = '\x0c' || c = '\r'

/-- The characters before the next newline. -/
def restOfLine (text : List Char) : List Char :=
  text.takeWhile (· != '\n')

/-- The text from the next newline on. -/
def nextLine (text : List Char) : List Char :=
  text.dropWhile (· != '\n')

/-- The characters of a word after its first letter. -/
def isWordCharacter (c : Char) : Bool :=
  c.isAlphanum || c = '_'

/-- What a piece of text is. -/
inductive PieceKind where
  | gap
  | token (kind : TokenKind)
  | fault (error : LexicalError)
  deriving DecidableEq, Repr

/-- The first piece of a text, and the text after it. -/
structure Piece where
  kind : PieceKind
  lexeme : List Char
  rest : List Char
  deriving DecidableEq, Repr

namespace Piece

/-- The piece of a single character. -/
def single (kind : PieceKind) (c : Char) (rest : List Char) : Piece :=
  ⟨kind, [c], rest⟩

/-- The piece of the first character and all that follow it with the given
property. -/
def run (kind : List Char → PieceKind) (p : Char → Bool) (c : Char) (rest : List Char) : Piece :=
  let lexeme := c :: rest.takeWhile p
  ⟨kind lexeme, lexeme, rest.dropWhile p⟩

/-- An operator of one character, or of two if the second follows. -/
def operator (short : PieceKind) (second : Char) (long : PieceKind) (c : Char) :
    List Char → Piece
  | d :: rest => if d = second then ⟨long, [c, d], rest⟩ else ⟨short, [c], d :: rest⟩
  | [] => ⟨short, [c], []⟩

/-- A comment up to the end of its line, or else a division sign. -/
def slash (c : Char) : List Char → Piece
  | '/' :: rest => ⟨.gap, c :: '/' :: restOfLine rest, nextLine rest⟩
  | rest => single (.token .divide) c rest

/-- An integer literal or, with a point right after its digits, a double
literal.  A point needs a digit behind it. -/
def number (c : Char) (rest : List Char) : Piece :=
  let whole := c :: rest.takeWhile Char.isDigit
  match rest.dropWhile Char.isDigit with
  | '.' :: afterPoint =>
    let fraction := afterPoint.takeWhile Char.isDigit
    let kind := if fraction = [] then PieceKind.fault .malformedDouble else .token .double
    ⟨kind, whole ++ '.' :: fraction, afterPoint.dropWhile Char.isDigit⟩
  | afterWhole => ⟨.token .integer, whole, afterWhole⟩

/-- The kind of a word: a keyword, or else an identifier. -/
def wordKind (lexeme : List Char) : PieceKind :=
  match Keyword.ofSpelling? (String.ofList lexeme) with
  | some keyword => .token (.keyword keyword)
  | none => .token .identifier

/-- The first piece of the text `c :: rest`. -/
def first (c : Char) (rest : List Char) : Piece :=
  match c with
  | ';' => single (.token .semicolon) c rest
  | '(' => single (.token .openParen) c rest
  | ')' => single (.token .closeParen) c rest
  | '{' => single (.token .openCurly) c rest
  | '}' => single (.token .closeCurly) c rest
  | '*' => single (.token .times) c rest
  | '/' => slash c rest
  | '=' => operator (.token .assign) '=' (.token .equal) c rest
  | '!' => operator (.fault (.expected '=')) '=' (.token .notEqual) c rest
  | '<' => operator (.token .less) '=' (.token .lessOrEqual) c rest
  | '>' => operator (.token .greater) '=' (.token .greaterOrEqual) c rest
  | '+' => operator (.token .plus) '+' (.token .increment) c rest
  | '-' => operator (.token .minus) '-' (.token .decrement) c rest
  | c =>
    if c.isAlpha then run wordKind isWordCharacter c rest
    else if c.isDigit then number c rest
    else if isSpace c then single .gap c rest
    else single (.fault (.badCharacter c)) c rest

/-- A piece is the beginning of its text, and not empty. -/
structure Begins (piece : Piece) (text : List Char) : Prop where
  lexeme_append_rest : piece.lexeme ++ piece.rest = text
  lexeme_ne_nil : piece.lexeme ≠ []

/-- A piece of one character begins the text. -/
theorem single_begins (kind : PieceKind) (c : Char) (rest : List Char) :
    (single kind c rest).Begins (c :: rest) :=
  ⟨rfl, List.cons_ne_nil _ _⟩

/-- So does a run of characters of one class. -/
theorem run_begins (kind : List Char → PieceKind) (p : Char → Bool) (c : Char)
    (rest : List Char) : (run kind p c rest).Begins (c :: rest) :=
  ⟨by simp [run, List.takeWhile_append_dropWhile], List.cons_ne_nil _ _⟩

/-- So does an operator, of one character or of two. -/
theorem operator_begins (short : PieceKind) (second : Char) (long : PieceKind) (c : Char)
    (rest : List Char) : (operator short second long c rest).Begins (c :: rest) := by
  cases rest with
  | nil => exact ⟨rfl, List.cons_ne_nil _ _⟩
  | cons d rest =>
      by_cases h : d = second
      · rw [operator, if_pos h]
        exact ⟨rfl, List.cons_ne_nil _ _⟩
      · rw [operator, if_neg h]
        exact ⟨rfl, List.cons_ne_nil _ _⟩

/-- So does a slash, alone or as the beginning of a comment. -/
theorem slash_begins (c : Char) (rest : List Char) : (slash c rest).Begins (c :: rest) := by
  unfold slash
  split
  · exact ⟨by simp [restOfLine, nextLine], List.cons_ne_nil _ _⟩
  · exact single_begins _ _ _

/-- So does a number, with or without a fraction. -/
theorem number_begins (c : Char) (rest : List Char) : (number c rest).Begins (c :: rest) := by
  have hrest : rest.takeWhile Char.isDigit ++ rest.dropWhile Char.isDigit = rest :=
    List.takeWhile_append_dropWhile
  unfold number
  split
  · next afterPoint hpoint =>
      refine ⟨?_, by simp⟩
      have hafter : afterPoint.takeWhile Char.isDigit ++ afterPoint.dropWhile Char.isDigit =
          afterPoint := List.takeWhile_append_dropWhile
      simp only [List.cons_append, List.append_assoc, hafter]
      rw [← hpoint, hrest]
  · exact ⟨by simp [hrest], by simp⟩

/-- **The first piece is the beginning of the text.**  Nothing is lost, and at
least one character is taken. -/
theorem first_begins (c : Char) (rest : List Char) : (first c rest).Begins (c :: rest) := by
  unfold first
  split
  all_goals first
    | exact single_begins _ _ _
    | exact operator_begins _ _ _ _ _
    | exact slash_begins _ _
    | skip
  split
  · exact run_begins _ _ _ _
  · split
    · exact number_begins _ _
    · split
      · exact single_begins _ _ _
      · exact single_begins _ _ _

/-- A piece that begins a text leaves less of it, so scanning ends. -/
theorem rest_length_lt {piece : Piece} {text : List Char} (h : piece.Begins text) :
    piece.rest.length < text.length := by
  have hlength := congrArg List.length h.lexeme_append_rest
  have hpos := List.length_pos_iff.mpr h.lexeme_ne_nil
  rw [List.length_append] at hlength
  omega

/-- Going on at the next line leaves no more than going on behind the piece. -/
theorem nextLine_length_lt {piece : Piece} {text : List Char} (h : piece.Begins text) :
    (nextLine piece.rest).length < text.length :=
  Nat.lt_of_le_of_lt (List.dropWhile_sublist _).length_le (rest_length_lt h)

end Piece

/-- What scanning finds: a token, or a fault, each with its place. -/
abbrev ScanItem := Except (Located LexicalError) (Located Token)

/-- Scans a text that begins at the given place. -/
def scanFrom (position : Position) : List Char → List ScanItem
  | [] => []
  | c :: text =>
    let piece := Piece.first c text
    let next := position.afterText piece.lexeme
    let span := Span.ofText position piece.lexeme
    match piece.kind with
    | .gap => scanFrom next piece.rest
    | .token kind =>
      .ok ⟨⟨kind, String.ofList piece.lexeme⟩, span⟩ :: scanFrom next piece.rest
    | .fault error =>
      .error ⟨error, span⟩ ::
        scanFrom (next.afterText (restOfLine piece.rest)) (nextLine piece.rest)
termination_by text => text.length
decreasing_by
  · exact Piece.rest_length_lt (Piece.first_begins c text)
  · exact Piece.rest_length_lt (Piece.first_begins c text)
  · exact Piece.nextLine_length_lt (Piece.first_begins c text)

/-- Scans a whole text. -/
def scan (text : String) : List ScanItem :=
  scanFrom {} text.toList

/-- The errors among scanned items. -/
def scanErrors (items : List ScanItem) : List (Located LexicalError) :=
  items.filterMap fun
    | .error error => some error
    | .ok _ => none

/-- The tokens among scanned items. -/
def scanTokens (items : List ScanItem) : List (Located Token) :=
  items.filterMap fun
    | .error _ => none
    | .ok token => some token

/-- All tokens of a text if it has no fault, and otherwise all its faults. -/
def tokenize (text : String) : Except (List (Located LexicalError)) (List (Located Token)) :=
  let items := scan text
  match scanErrors items with
  | [] => .ok (scanTokens items)
  | errors => .error errors

end AtomCompiler
