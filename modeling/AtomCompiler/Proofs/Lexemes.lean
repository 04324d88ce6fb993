import AtomCompiler.Atom.Basic
import AtomCompiler.Token.Scan

/-!
# Lexemes

The language of each class of tokens, and what it says about operands.

* `Piece.isSpelled_first` — a piece that is a token is spelled as its class asks;
* `tokenize_spells` — so is every token of a text;
* `isLiteral_of_isWord`, `isLiteral_of_number` — an operand is a literal
  exactly when it was written as a number.
-/

namespace AtomCompiler

/-- A row of one or more decimal digits. -/
def IsDigits (text : List Char) : Prop :=
  text ≠ [] ∧ ∀ c ∈ text, c.isDigit = true

/-- The words that are spelled with letters, digits and underscores. -/
def IsWord : List Char → Prop
  | [] => False
  | c :: rest => c.isAlpha = true ∧ ∀ d ∈ rest, isWordCharacter d = true

/-- The language of a class of tokens. -/
def TokenKind.Spells : TokenKind → List Char → Prop
  | identifier, text => IsWord text ∧ Keyword.ofSpelling? (String.ofList text) = none
  | keyword word, text => String.ofList text = word.spelling
  | integer, text => IsDigits text
  | double, text =>
    ∃ whole fraction, text = whole ++ '.' :: fraction ∧ IsDigits whole ∧ IsDigits fraction
  | assign, text => text = ['=']
  | equal, text => text = ['=', '=']
  | notEqual, text => text = ['!', '=']
  | less, text => text = ['<']
  | lessOrEqual, text => text = ['<', '=']
  | greater, text => text = ['>']
  | greaterOrEqual, text => text = ['>', '=']
  | plus, text => text = ['+']
  | minus, text => text = ['-']
  | times, text => text = ['*']
  | divide, text => text = ['/']
  | increment, text => text = ['+', '+']
  | decrement, text => text = ['-', '-']
  | semicolon, text => text = [';']
  | openParen, text => text = ['(']
  | closeParen, text => text = [')']
  | openCurly, text => text = ['\x7b']
  | closeCurly, text => text = ['\x7d']

/-! ## Pieces -/

namespace Piece

/-- If a piece is a token, then it is spelled as its class asks. -/
def IsSpelled (piece : Piece) : Prop :=
  ∀ kind, piece.kind = .token kind → kind.Spells piece.lexeme

/-- A token of one character is spelled by it. -/
theorem isSpelled_single {kind : TokenKind} {c : Char} (h : kind.Spells [c]) (rest : List Char) :
    (single (.token kind) c rest).IsSpelled := by
  intro other heq
  injection heq with heq
  exact heq ▸ h

/-- An operator is spelled by its first character, or by both. -/
theorem isSpelled_operator {short long : PieceKind} {c second : Char}
    (hshort : ∀ kind, short = .token kind → kind.Spells [c])
    (hlong : ∀ kind, long = .token kind → kind.Spells [c, second]) (rest : List Char) :
    (operator short second long c rest).IsSpelled := by
  cases rest with
  | nil => exact hshort
  | cons d rest =>
      by_cases h : d = second
      · rw [operator, if_pos h, h]
        exact hlong
      · rw [operator, if_neg h]
        exact hshort

/-- A division is spelled by a slash, and a comment is no token. -/
theorem isSpelled_slash (rest : List Char) : (slash '/' rest).IsSpelled := by
  unfold slash
  split
  · intro kind heq
    cases heq
  · exact isSpelled_single (by exact rfl) _

/-- A word is spelled as a keyword if it is one, and else as an identifier. -/
theorem isSpelled_word {c : Char} (h : c.isAlpha = true) (rest : List Char) :
    (run wordKind isWordCharacter c rest).IsSpelled := by
  have hword : IsWord (c :: rest.takeWhile isWordCharacter) :=
    ⟨h, fun d hd => List.all_eq_true.mp List.all_takeWhile d hd⟩
  intro kind heq
  simp only [run, wordKind] at heq ⊢
  split at heq
  · next keyword hkeyword =>
      cases heq
      exact Keyword.ofSpelling?_eq_some_iff.mp hkeyword
  · next hnone =>
      cases heq
      exact ⟨hword, hnone⟩

/-- A digit and the digits behind it are digits. -/
theorem isDigits_takeWhile {c : Char} (h : c.isDigit = true) (rest : List Char) :
    IsDigits (c :: rest.takeWhile Char.isDigit) := by
  refine ⟨List.cons_ne_nil _ _, ?_⟩
  intro d hd
  rcases List.mem_cons.mp hd with rfl | hd
  · exact h
  · exact List.all_eq_true.mp List.all_takeWhile d hd

/-- A number is spelled by digits, with or without a point between them. -/
theorem isSpelled_number {c : Char} (h : c.isDigit = true) (rest : List Char) :
    (number c rest).IsSpelled := by
  have hwhole := isDigits_takeWhile h rest
  intro kind heq
  unfold number at heq ⊢
  split at heq
  · next afterPoint hpoint =>
      simp only at heq ⊢
      split at heq
      · cases heq
      · next hfraction =>
          cases heq
          exact ⟨_, _, rfl, hwhole, hfraction,
            fun d hd => List.all_eq_true.mp List.all_takeWhile d hd⟩
  · cases heq
    exact hwhole

/-- **A piece that is a token is spelled as its class asks.** -/
theorem isSpelled_first (c : Char) (rest : List Char) : (first c rest).IsSpelled := by
  unfold first
  split
  all_goals first
    | exact isSpelled_single (by exact rfl) _
    | exact isSpelled_slash _
    | (refine isSpelled_operator ?_ ?_ _ <;> (intro kind heq; cases heq <;> rfl))
    | skip
  split
  · next h => exact isSpelled_word h rest
  · split
    · next h => exact isSpelled_number h rest
    · split <;> (intro kind heq; cases heq)

end Piece

/-! ## Tokens -/

/-- **Every token that is scanned is spelled by its lexeme.** -/
theorem scanFrom_spells (position : Position) (text : List Char) :
    ∀ token, .ok token ∈ scanFrom position text →
      token.value.kind.Spells token.value.lexeme.toList := by
  intro token hmem
  fun_induction scanFrom position text with
  | case1 => cases hmem
  | case2 position c text piece next hkind ih => exact ih hmem
  | case3 position c text piece next span kind hkind ih =>
      rcases List.mem_cons.mp hmem with heq | hmem
      · injection heq with heq
        subst heq
        rw [String.toList_ofList]
        exact Piece.isSpelled_first c text kind hkind
      · exact ih hmem
  | case4 position c text piece next span error hkind ih =>
      rcases List.mem_cons.mp hmem with heq | hmem
      · cases heq
      · exact ih hmem

/-- **Every token of a text is spelled as its class asks.** -/
theorem tokenize_spells {text : String} {tokens : List (Located Token)}
    (h : tokenize text = .ok tokens) :
    ∀ token ∈ tokens, token.value.kind.Spells token.value.lexeme.toList := by
  simp only [tokenize] at h
  split at h
  · injection h with h
    subst h
    intro token hmem
    obtain ⟨item, hitem, heq⟩ := List.mem_filterMap.mp hmem
    cases item with
    | error error => cases heq
    | ok found =>
        obtain rfl := Option.some.inj heq
        exact scanFrom_spells {} text.toList found hitem
  · cases h

/-! ## Operands -/

/-- A letter is neither a digit nor a minus sign. -/
theorem not_isDigit_of_isAlpha {c : Char} (h : c.isAlpha = true) : c.isDigit = false ∧ c ≠ '-' := by
  have hletter : (c.isUpper || c.isLower) = true := h
  have hle : 65 ≤ c.val.toNat := by
    rcases Bool.or_eq_true_iff.mp hletter with hupper | hlower
    · have hbounds : c.val ≥ 'A'.val ∧ c.val ≤ 'Z'.val := of_decide_eq_true hupper
      exact UInt32.le_iff_toNat_le.mp hbounds.1
    · have hle := UInt32.le_iff_toNat_le.mp (of_decide_eq_true (Bool.and_eq_true_iff.mp hlower).1)
      exact Nat.le_trans (by decide) hle
  constructor
  · refine Bool.eq_false_iff.mpr fun hdigit => ?_
    have hge := UInt32.le_iff_toNat_le.mp (of_decide_eq_true (Bool.and_eq_true_iff.mp hdigit).2)
    exact absurd (Nat.le_trans hle hge) (by decide)
  · rintro rfl
    exact absurd hle (by decide)

/-- **A word is not a literal.** -/
theorem isLiteral_of_isWord {text : String} (h : IsWord text.toList) : isLiteral text = false := by
  unfold isLiteral
  cases htext : text.toList with
  | nil => rfl
  | cons c rest =>
      rw [htext] at h
      obtain ⟨hdigit, hminus⟩ := not_isDigit_of_isAlpha h.1
      split
      · next heq =>
          injection heq with heq
          exact absurd heq hminus
      · next heq =>
          injection heq with heq
          rw [← heq, hdigit]
      · rfl

/-- A text that begins with a digit is a literal, and so it is with a minus sign
in front. -/
theorem isLiteral_of_isDigit {text : String} {c : Char} {rest : List Char}
    (h : text.toList = c :: rest) (hdigit : c.isDigit = true) :
    isLiteral text = true ∧ isLiteral ("-" ++ text) = true := by
  constructor
  · have hminus : c ≠ '-' := by
      rintro rfl
      exact absurd hdigit (by decide)
    unfold isLiteral
    split
    · next heq =>
        rw [h] at heq
        injection heq with heq
        exact absurd heq hminus
    · next heq =>
        rw [h] at heq
        injection heq with heq
        rw [← heq, hdigit]
    · next heq =>
        rw [h] at heq
        cases heq
  · rw [isLiteral, String.toList_append, h]
    exact hdigit

/-- **A number is a literal,** with and without a minus sign. -/
theorem isLiteral_of_number {kind : TokenKind} {text : String} (h : kind.Spells text.toList)
    (hkind : kind = .integer ∨ kind = .double) :
    isLiteral text = true ∧ isLiteral ("-" ++ text) = true := by
  rcases hkind with rfl | rfl
  · obtain ⟨hne, hdigits⟩ := h
    obtain ⟨c, rest, htext⟩ := List.exists_cons_of_ne_nil hne
    exact isLiteral_of_isDigit htext (hdigits c (by simp [htext]))
  · obtain ⟨whole, fraction, htext, ⟨hne, hdigits⟩, -⟩ := h
    obtain ⟨c, rest, rfl⟩ := List.exists_cons_of_ne_nil hne
    exact isLiteral_of_isDigit htext (hdigits c (by simp))

end AtomCompiler
