import AtomCompiler.Number.Numeral
import AtomCompiler.Proofs.Lexemes

/-!
# Which texts are numerals

The grammar of numerals, apart from how they are read: a sign, then digits with at most
one point and an exponent, or a word.  Reading a numeral takes the longest row of digits
each time; nothing is lost by that, because neither a point nor an exponent begins with
a digit.

* `IsNumeral` — the grammar;
* `Magnitude.readDecimal?_isSome_iff` — the unsigned decimals that are read;
* `Numeral.bits?_isSome_iff` — a text stands for a number exactly if it is a numeral.
-/

namespace AtomCompiler

/-! ## The grammar -/

/-- `sign := ('+' | '-')?` -/
inductive IsSign : List Char → Prop
  | absent : IsSign []
  | plus : IsSign ['+']
  | minus : IsSign ['-']

/-- `exponent := (('e' | 'E') sign digit+)?` -/
inductive IsExponent : List Char → Prop
  | absent : IsExponent []
  | present {mark : Char} {sign digits : List Char} :
      mark = 'e' ∨ mark = 'E' → IsSign sign → IsDigits digits →
      IsExponent (mark :: (sign ++ digits))

/-- `mantissa := digit+ | digit* '.' digit*`, with a digit on one side of the point. -/
inductive IsMantissa : List Char → Prop
  | whole {digits : List Char} : IsDigits digits → IsMantissa digits
  | pointed {whole fraction : List Char} : IsDigits (whole ++ fraction) →
      IsMantissa (whole ++ '.' :: fraction)

/-- `numeral := sign (mantissa exponent | word)`, the words in letters of either case. -/
inductive IsNumeral : List Char → Prop
  | decimal {sign mantissa exponent : List Char} :
      IsSign sign → IsMantissa mantissa → IsExponent exponent →
      IsNumeral (sign ++ (mantissa ++ exponent))
  | word {sign letters : List Char} {word : String} :
      IsSign sign → word ∈ ["inf", "infinity", "nan"] → letters.map Char.toLower = word.toList →
      IsNumeral (sign ++ letters)

/-! ## Signs -/

/-- A sign is split off, if there is one, and nothing is lost. -/
theorem exists_sign_of_splitSign (text : List Char) :
    ∃ sign, IsSign sign ∧ text = sign ++ (splitSign text).2 := by
  unfold splitSign
  split
  · exact ⟨['-'], .minus, rfl⟩
  · exact ⟨['+'], .plus, rfl⟩
  · exact ⟨[], .absent, rfl⟩

/-- A sign is split off if what follows it does not begin with another one. -/
theorem splitSign_append {sign text : List Char} (hsign : IsSign sign)
    (htext : ∀ c ∈ text.head?, c ≠ '+' ∧ c ≠ '-') : (splitSign (sign ++ text)).2 = text := by
  cases hsign with
  | absent =>
      rw [List.nil_append]
      unfold splitSign
      split
      · exact absurd rfl (htext '-' rfl).2
      · exact absurd rfl (htext '+' rfl).1
      · rfl
  | plus => rfl
  | minus => rfl

/-! ## Digits and exponents -/

/-- A decimal can be read exactly if it is made of digits. -/
theorem Text.readDecimal?_isSome_iff {text : List Char} :
    (Text.readDecimal? text).isSome ↔ IsDigits text := by
  unfold Text.readDecimal? IsDigits
  split
  · next h => simpa using h
  · next h => simpa using h

/-- No digit is a sign. -/
theorem ne_sign_of_isDigit {c : Char} (h : c.isDigit = true) : c ≠ '+' ∧ c ≠ '-' := by
  constructor
  · intro heq
    exact absurd (heq ▸ h) (by decide)
  · intro heq
    exact absurd (heq ▸ h) (by decide)

/-- A row of digits does not begin with a sign. -/
theorem IsDigits.head?_ne {text : List Char} (h : IsDigits text) :
    ∀ c ∈ text.head?, c ≠ '+' ∧ c ≠ '-' :=
  fun c hc => ne_sign_of_isDigit (h.2 c (List.mem_of_head? hc))

namespace Magnitude

/-- An exponent can be read exactly if there is none, or a mark, a sign and digits. -/
theorem readExponent?_isSome_iff {text : List Char} :
    (readExponent? text).isSome ↔ IsExponent text := by
  constructor
  · intro h
    cases text with
    | nil => exact .absent
    | cons mark rest =>
        obtain ⟨sign, hsign, hrest⟩ := exists_sign_of_splitSign rest
        simp only [readExponent?] at h
        split at h
        · next hmark =>
            simp only [bind_pure_comp, Option.map_eq_map, Option.isSome_map,
              Text.readDecimal?_isSome_iff] at h
            rw [hrest]
            exact .present hmark hsign h
        · cases h
  · intro h
    cases h with
    | absent => rfl
    | present hmark hsign hdigits =>
        simp only [readExponent?, splitSign_append hsign hdigits.head?_ne, if_pos hmark,
          bind_pure_comp, Option.map_eq_map, Option.isSome_map, Text.readDecimal?_isSome_iff]
        exact hdigits

/-! ## Decimals -/

/-- An exponent does not go on with a digit or with a point. -/
theorem exponent_boundary {text : List Char} (h : IsExponent text) :
    text.takeWhile Char.isDigit = [] ∧ text.dropWhile Char.isDigit = text ∧
      text.head? ≠ some '.' := by
  cases h with
  | absent => simp
  | present hmark _ _ =>
      obtain rfl | rfl := hmark
      all_goals exact ⟨rfl, rfl, by simp⟩

/-- Without a point behind the first digits they are all the digits there are. -/
theorem readDecimal?_of_unpointed {text : List Char}
    (h : (text.dropWhile Char.isDigit).head? ≠ some '.') :
    (readDecimal? text).isSome ↔
      text.takeWhile Char.isDigit ≠ [] ∧ IsExponent (text.dropWhile Char.isDigit) := by
  simp only [readDecimal?, h, if_false, List.append_nil]
  split
  · next hnil => simp [hnil]
  · next hne => simp [hne, readExponent?_isSome_iff]

/-- With a point, there may be digits on both sides. -/
theorem readDecimal?_of_pointed {text after : List Char}
    (h : text.dropWhile Char.isDigit = '.' :: after) :
    (readDecimal? text).isSome ↔
      text.takeWhile Char.isDigit ++ after.takeWhile Char.isDigit ≠ [] ∧
        IsExponent (after.dropWhile Char.isDigit) := by
  simp only [readDecimal?, h, List.head?_cons, if_true, List.tail_cons]
  split
  · next hnil => simp [hnil]
  · next hne => simp [hne, readExponent?_isSome_iff]

theorem isDigit_of_mem_takeWhile {text : List Char} {c : Char}
    (h : c ∈ text.takeWhile Char.isDigit) : c.isDigit = true :=
  List.all_eq_true.mp List.all_takeWhile c h

/-- **A decimal is a mantissa and an exponent.** -/
theorem readDecimal?_isSome_iff {text : List Char} :
    (readDecimal? text).isSome ↔
      ∃ mantissa exponent, text = mantissa ++ exponent ∧ IsMantissa mantissa ∧
        IsExponent exponent := by
  constructor
  · intro h
    by_cases hpoint : (text.dropWhile Char.isDigit).head? = some '.'
    · obtain ⟨after, hafter⟩ := List.head?_eq_some_iff.mp hpoint
      rw [readDecimal?_of_pointed hafter] at h
      refine ⟨text.takeWhile Char.isDigit ++ '.' :: after.takeWhile Char.isDigit, _, ?_,
        .pointed ⟨h.1, fun c hc => ?_⟩, h.2⟩
      · rw [List.append_assoc, List.cons_append, List.takeWhile_append_dropWhile, ← hafter,
          List.takeWhile_append_dropWhile]
      · exact (List.mem_append.mp hc).elim isDigit_of_mem_takeWhile isDigit_of_mem_takeWhile
    · rw [readDecimal?_of_unpointed hpoint] at h
      exact ⟨_, _, List.takeWhile_append_dropWhile.symm,
        .whole ⟨h.1, fun _ => isDigit_of_mem_takeWhile⟩, h.2⟩
  · intro h
    obtain ⟨mantissa, exponent, rfl, hmantissa, hexponent⟩ := h
    -- an exponent begins with neither a digit nor a point, so the mantissa ends before it
    obtain ⟨htake, hdrop, hpoint⟩ := exponent_boundary hexponent
    cases hmantissa with
    | whole hdigits =>
        have hrest : (mantissa ++ exponent).dropWhile Char.isDigit = exponent := by
          rw [List.dropWhile_append_of_pos hdigits.2, hdrop]
        rw [readDecimal?_of_unpointed (by rwa [hrest]), hrest,
          List.takeWhile_append_of_pos hdigits.2, htake, List.append_nil]
        exact ⟨hdigits.1, hexponent⟩
    | @pointed whole fraction hdigits =>
        obtain ⟨hne, hall⟩ := hdigits
        obtain ⟨hwhole, hfraction⟩ := List.forall_mem_append.mp hall
        have hrest : (whole ++ '.' :: fraction ++ exponent).dropWhile Char.isDigit =
            '.' :: (fraction ++ exponent) := by
          rw [List.append_assoc, List.dropWhile_append_of_pos hwhole]
          rfl
        have hfirst : (whole ++ '.' :: fraction ++ exponent).takeWhile Char.isDigit = whole := by
          rw [List.append_assoc, List.takeWhile_append_of_pos hwhole]
          exact List.append_nil whole
        rw [readDecimal?_of_pointed hrest, hfirst, List.takeWhile_append_of_pos hfraction, htake,
          List.append_nil, List.dropWhile_append_of_pos hfraction, hdrop]
        exact ⟨hne, hexponent⟩

end Magnitude

/-! ## Signed numerals -/

/-- A word is read whatever the case of its letters, and anything else is a decimal. -/
theorem Magnitude.read?_isSome_iff {text : List Char} :
    (read? text).isSome ↔
      (∃ word ∈ ["inf", "infinity", "nan"], text.map Char.toLower = word.toList) ∨
        (readDecimal? text).isSome := by
  have hword : ∀ word, String.ofList (text.map Char.toLower) = word ↔
      text.map Char.toLower = word.toList := by
    intro word
    rw [← String.toList_inj, String.toList_ofList]
  simp only [read?, hword, List.mem_cons, List.not_mem_nil, or_false, exists_eq_or_imp,
    exists_eq_left]
  split
  · next h => grind
  · next h => split <;> grind

/-- Neither a decimal nor a word begins with a sign. -/
theorem IsMantissa.head?_ne {mantissa : List Char} (h : IsMantissa mantissa) (rest : List Char) :
    ∀ c ∈ (mantissa ++ rest).head?, c ≠ '+' ∧ c ≠ '-' := by
  intro c hc
  cases h with
  | whole hdigits =>
      obtain ⟨first, digits, rfl⟩ := List.exists_cons_of_ne_nil hdigits.1
      exact hdigits.head?_ne c hc
  | @pointed whole fraction hdigits =>
      cases whole with
      | nil =>
          obtain rfl : '.' = c := Option.some.inj hc
          decide
      | cons first whole => exact hdigits.head?_ne c hc

/-- The words for numbers that are not finite do not begin with a sign. -/
theorem head?_ne_of_word {letters : List Char} {word : String}
    (hword : word ∈ ["inf", "infinity", "nan"]) (h : letters.map Char.toLower = word.toList) :
    ∀ c ∈ letters.head?, c ≠ '+' ∧ c ≠ '-' := by
  intro c hc
  obtain ⟨rest, rfl⟩ := List.head?_eq_some_iff.mp hc
  have hsigns : ∀ word ∈ ["inf", "infinity", "nan"],
      word.toList.head? ≠ some '+' ∧ word.toList.head? ≠ some '-' := by
    decide +kernel
  obtain ⟨hplus, hminus⟩ := hsigns word hword
  rw [← h] at hplus hminus
  constructor
  · intro heq
    exact hplus (by rw [heq]; rfl)
  · intro heq
    exact hminus (by rw [heq]; rfl)

/-- **A text can be read as a number exactly if it is a numeral.** -/
theorem Numeral.bits?_isSome_iff {text : String} :
    (bits? text).isSome ↔ IsNumeral text.toList := by
  simp only [bits?, read?, Option.isSome_map, Magnitude.read?_isSome_iff]
  constructor
  · intro h
    obtain ⟨sign, hsign, htext⟩ := exists_sign_of_splitSign text.toList
    rw [htext]
    obtain ⟨word, hword, hletters⟩ | hdecimal := h
    · exact .word hsign hword hletters
    · obtain ⟨mantissa, exponent, hrest, hmantissa, hexponent⟩ :=
        Magnitude.readDecimal?_isSome_iff.mp hdecimal
      rw [hrest]
      exact .decimal hsign hmantissa hexponent
  · intro h
    generalize text.toList = chars at h
    cases h with
    | decimal hsign hmantissa hexponent =>
        rw [splitSign_append hsign (hmantissa.head?_ne _)]
        exact .inr (Magnitude.readDecimal?_isSome_iff.mpr ⟨_, _, rfl, hmantissa, hexponent⟩)
    | word hsign hword hletters =>
        rw [splitSign_append hsign (head?_ne_of_word hword hletters)]
        exact .inl ⟨_, hword, hletters⟩

end AtomCompiler
