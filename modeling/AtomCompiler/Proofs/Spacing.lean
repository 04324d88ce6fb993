import AtomCompiler.Proofs.Parsing
import AtomCompiler.Proofs.Partition

/-!
# Tokens written one after another

Tokens can be written with any blanks and comments between them, as long as a blank
stands right behind each, and are found again as they were.  No lexeme holds a blank, so
none goes on beyond the blank behind it, whatever token comes next; and the blank keeps a
division sign apart from the slashes of a comment.

* `Spacing`, `IsSeparator` — what may stand before and between tokens;
* `spaced` — tokens with separators between them;
* `whole_of_beginsBlank` — a blank ends every lexeme;
* `Partition.spaced` — how the text of spaced tokens is divided;
* `tokenize_spaced` — spaced tokens are found again.
-/

namespace AtomCompiler

/-! ## Spacings and separators -/

/-- A row of blanks and of comments that end with a newline, in any order. -/
inductive Spacing : List Char → Prop
  | nil : Spacing []
  | blank {c : Char} {rest : List Char} (hc : isSpace c = true) (h : Spacing rest) :
      Spacing (c :: rest)
  | comment {body rest : List Char} (hbody : '\n' ∉ body) (h : Spacing rest) :
      Spacing ('/' :: '/' :: (body ++ '\n' :: rest))

/-- A text that is empty or begins with a blank. -/
def BeginsBlank (text : List Char) : Prop :=
  ∀ c, text.head? = some c → isSpace c = true

/-- What may stand between two tokens: a spacing that begins with a blank. -/
def IsSeparator (text : String) : Prop :=
  text ≠ "" ∧ Spacing text.toList ∧ BeginsBlank text.toList

/-- The lexemes of some tokens with a separator between any two of them, each chosen by
the number of tokens behind it. -/
def spaced (separator : Nat → String) : List Token → String
  | [] => ""
  | [token] => token.lexeme
  | token :: next :: rest =>
    token.lexeme ++ (separator (rest.length + 1) ++ spaced separator (next :: rest))

/-- A spacing makes a gap longer. -/
theorem Spacing.gap_append {front gap rest : List Char} (h : Spacing front) (hgap : Gap rest gap) :
    Gap rest (front ++ gap) := by
  induction h with
  | nil => exact hgap
  | blank hc h ih => exact .blank hc ih
  | @comment body text hbody h ih =>
      have hnewline : Gap rest ('\n' :: (text ++ gap)) := .blank rfl ih
      have hend : Stops (· != '\n') ('\n' :: (text ++ gap) ++ rest) := by
        intro c hc
        obtain rfl := Option.some.inj hc
        rfl
      have hcomment := Gap.comment hbody hend hnewline
      simpa using hcomment

/-- Nothing is found in a spacing. -/
theorem Partition.spacing_append {position : Position} {front text : List Char}
    {items : List ScanItem} (hfront : Spacing front)
    (h : Partition (position.afterText front) text items) :
    Partition position (front ++ text) items := by
  refine Partition.gap_append ?_ h
  intro gap rest _ hgap
  exact hfront.gap_append hgap

/-! ## Lexemes before blanks -/

/-- **A blank ends every lexeme,** since no token holds one. -/
theorem whole_of_beginsBlank {rest : List Char} (h : BeginsBlank rest) (lexeme : List Char) :
    Whole lexeme rest := by
  intro c hc
  have hspace := h c hc
  constructor
  · intro hlonger
    obtain ⟨kind, more, hspells⟩ := hlonger
    have hsolid := hspells.solid.2 c (by simp)
    rw [hspace] at hsolid
    cases hsolid
  · intro hslashes
    have hmem : c ∈ ['/', '/'] := hslashes ▸ by simp
    obtain rfl : c = '/' := by simpa using hmem
    exact absurd hspace (by decide)

/-- A text that goes on after a separator begins with a blank. -/
theorem IsSeparator.beginsBlank_append {separator : String} (h : IsSeparator separator)
    (rest : List Char) : BeginsBlank (separator.toList ++ rest) := by
  obtain ⟨hne, -, hblank⟩ := h
  have hcons : separator.toList ≠ [] := by simpa using hne
  obtain ⟨c, text, htext⟩ := List.exists_cons_of_ne_nil hcons
  rw [htext] at hblank ⊢
  exact hblank

/-- A token in front of a blank is found, and then what is found behind it. -/
theorem Partition.token_append {position : Position} {token : Token} {rest : List Char}
    {tokens : List (Located Token)} (hspells : token.kind.Spells token.lexeme.toList)
    (hrest : BeginsBlank rest)
    (h : Partition (position.afterText token.lexeme.toList) rest (tokens.map .ok)) :
    Partition position (token.lexeme.toList ++ rest)
      ((⟨token, Span.ofText position token.lexeme.toList⟩ :: tokens).map .ok) := by
  have hwhole := whole_of_beginsBlank hrest token.lexeme.toList
  have hdivided : Partition position ([] ++ (token.lexeme.toList ++ rest)) _ :=
    .token .nil hspells hwhole h
  rw [String.ofList_toList] at hdivided
  exact hdivided

/-- **How the text of spaced tokens is divided:** into the tokens and nothing else. -/
theorem Partition.spaced {separator : Nat → String} (hseparator : ∀ n, IsSeparator (separator n))
    {back : List Char} (hback : Spacing back) (hblank : BeginsBlank back) {tokens : List Token}
    (hspells : ∀ token ∈ tokens, token.kind.Spells token.lexeme.toList) (position : Position) :
    ∃ located : List (Located Token), located.map Located.value = tokens ∧
      Partition position ((AtomCompiler.spaced separator tokens).toList ++ back)
        (located.map .ok) := by
  have hend : ∀ position, Partition position back ([].map .ok) := by
    intro position
    have hgap : Gap [] (back ++ []) := hback.gap_append .nil
    rw [List.append_nil] at hgap
    exact .last hgap
  fun_induction AtomCompiler.spaced separator tokens generalizing position with
  | case1 => exact ⟨[], rfl, hend position⟩
  | case2 token =>
      have htoken := hspells token List.mem_cons_self
      exact ⟨[_], rfl, .token_append htoken hblank (hend _)⟩
  | case3 token next rest ih =>
      obtain ⟨htoken, hrest⟩ := List.forall_mem_cons.mp hspells
      have hbetween := hseparator (rest.length + 1)
      obtain ⟨located, hvalues, hdivided⟩ := ih hrest
        ((position.afterText token.lexeme.toList).afterText (separator (rest.length + 1)).toList)
      refine ⟨⟨token, Span.ofText position token.lexeme.toList⟩ :: located,
        congrArg (List.cons token) hvalues, ?_⟩
      rw [String.toList_append, String.toList_append, List.append_assoc, List.append_assoc]
      exact .token_append htoken (hbetween.beginsBlank_append _)
        (.spacing_append hbetween.2.1 hdivided)

/-! ## Texts -/

/-- **Spaced tokens are found again.**  However well-formed tokens are written, with any
separators between them, any spacing in front and, behind a blank, at the end, the text
has just these tokens, in this order. -/
theorem tokenize_spaced {tokens : List Token}
    (hspells : ∀ token ∈ tokens, token.kind.Spells token.lexeme.toList)
    {separator : Nat → String} (hseparator : ∀ n, IsSeparator (separator n))
    {front back : String} (hfront : Spacing front.toList)
    (hback : back = "" ∨ IsSeparator back) :
    ∃ located, tokenize (front ++ (spaced separator tokens ++ back)) = .ok located ∧
      located.map Located.value = tokens := by
  have hend : Spacing back.toList ∧ BeginsBlank back.toList := by
    rcases hback with hnil | hseparates
    · rw [hnil]
      exact ⟨.nil, fun c hc => by cases hc⟩
    · exact hseparates.2
  obtain ⟨located, hvalues, hdivided⟩ := Partition.spaced hseparator hend.1 hend.2 hspells
    (Position.afterText {} front.toList)
  refine ⟨located, ?_, hvalues⟩
  have hwhole : Partition {} (front ++ (spaced separator tokens ++ back)).toList
      (located.map .ok) := by
    rw [String.toList_append, String.toList_append]
    exact .spacing_append hfront hdivided
  rw [tokenize_eq_ok_iff]
  exact hwhole.scanFrom_eq

/-- Two comments before the last two tokens, and a space elsewhere. -/
def commentsBeforeLast (n : Nat) : String :=
  if n = 2 then " // by\n//\n\t" else " "

/-- Comments with their newlines separate as spaces do. -/
theorem isSeparator_commentsBeforeLast (n : Nat) : IsSeparator (commentsBeforeLast n) := by
  have hblank : ∀ rest, BeginsBlank (' ' :: rest) := by
    intro rest c hc
    obtain rfl := Option.some.inj hc
    rfl
  unfold commentsBeforeLast
  split
  · have htext : " // by\n//\n\t".toList =
        ' ' :: '/' :: '/' :: ([' ', 'b', 'y'] ++ '\n' :: '/' :: '/' :: ([] ++ '\n' :: ['\t'])) := by
      decide
    refine ⟨by decide, ?_, by rw [htext]; exact hblank _⟩
    rw [htext]
    exact .blank rfl (.comment (by decide) (.comment (by decide) (.blank rfl .nil)))
  · have htext : " ".toList = [' '] := by decide
    refine ⟨by decide, ?_, by rw [htext]; exact hblank _⟩
    rw [htext]
    exact .blank rfl .nil

/-- A name that begins like a keyword, a division sign before a comment, and comments in a
row; the text begins with a comment and ends with a blank. -/
theorem tokenize_spaced_division :
    ∃ located, tokenize "//\niffy = 7.50 / // by\n//\n\tdouble ++ " = .ok located ∧
      located.map Located.value =
        [⟨.identifier, "iffy"⟩, ⟨.assign, "="⟩, ⟨.double, "7.50"⟩, ⟨.divide, "/"⟩,
          ⟨.keyword .kwDouble, "double"⟩, ⟨.increment, "++"⟩] := by
  -- the lexemes are those of another text, in which nothing stands between the tokens
  have htight : (tokenize "iffy=7.50/double++").toOption.map (List.map Located.value) =
      some [⟨.identifier, "iffy"⟩, ⟨.assign, "="⟩, ⟨.double, "7.50"⟩, ⟨.divide, "/"⟩,
        ⟨.keyword .kwDouble, "double"⟩, ⟨.increment, "++"⟩] := by
    decide +kernel
  obtain ⟨found, hfound, hvalues⟩ := Option.map_eq_some_iff.mp htight
  have hspells : ∀ token ∈ found.map Located.value, token.kind.Spells token.lexeme.toList := by
    intro token hmem
    obtain ⟨located, hlocated, rfl⟩ := List.mem_map.mp hmem
    exact tokenize_spells (eq_ok_of_toOption hfound) located hlocated
  have hfront : Spacing "//\n".toList := by
    have htext : "//\n".toList = '/' :: '/' :: ([] ++ '\n' :: []) := by decide
    rw [htext]
    exact .comment List.not_mem_nil .nil
  have hback : " " = "" ∨ IsSeparator " " := .inr (isSeparator_commentsBeforeLast 0)
  rw [hvalues] at hspells
  have htokens := tokenize_spaced hspells isSeparator_commentsBeforeLast hfront hback
  have htext : "//\n" ++ (spaced commentsBeforeLast
      [⟨.identifier, "iffy"⟩, ⟨.assign, "="⟩, ⟨.double, "7.50"⟩, ⟨.divide, "/"⟩,
        ⟨.keyword .kwDouble, "double"⟩, ⟨.increment, "++"⟩] ++ " ") =
      "//\niffy = 7.50 / // by\n//\n\tdouble ++ " := by
    decide +kernel
  rwa [htext] at htokens

end AtomCompiler
