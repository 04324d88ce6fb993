import AtomCompiler.Program.Compile
import AtomCompiler.Program.Written

/-!
# What the parser has read

Every rule of the parser that succeeds has taken some tokens off the front, and
what it returns is written with exactly those tokens.

* `Parsed.Took` — what is said of a rule that succeeds;
* `statement_took`, `block_took` — the rules that call each other;
* `parse_isWritten` — a parsed program is written with all its tokens.
-/

namespace AtomCompiler

/-! ## Results of a sequence of rules -/

section Except

variable {ε α β : Type}

/-- If two computations succeed one after the other, each of them does. -/
theorem bind_eq_ok {result : Except ε α} {next : α → Except ε β} {value : β}
    (h : (result >>= next) = .ok value) : ∃ first, result = .ok first ∧ next first = .ok value := by
  cases result with
  | error e => cases h
  | ok first => exact ⟨first, rfl, h⟩

/-- If a mapped computation succeeds, the computation does. -/
theorem map_eq_ok {result : Except ε α} {f : α → β} {value : β}
    (h : (f <$> result) = .ok value) : ∃ first, result = .ok first ∧ f first = value := by
  cases result with
  | error e => cases h
  | ok first => exact ⟨first, rfl, by injection h⟩

/-- A result that is there is the result. -/
theorem eq_ok_of_toOption {result : Except ε α} {value : α}
    (h : result.toOption = some value) : result = .ok value := by
  cases result with
  | error e => cases h
  | ok found => exact congrArg Except.ok (Option.some.inj h)

end Except

namespace Program

/-- The tokens still to come, without their places. -/
def Cursor.values (cursor : Cursor) : List Token :=
  cursor.tokens.map Located.value

/-- A rule has taken tokens off the front that what it returns is written
with. -/
def Parsed.Took {α : Type} {start : Cursor} (parsed : Parsed α start)
    (written : α → List Token → Prop) : Prop :=
  ∃ taken, start.values = taken ++ parsed.next.values ∧ written parsed.value taken

/-- A kind that the parser sees is that of the next token. -/
theorem Cursor.values_of_peek? {cursor : Cursor} {kind : TokenKind}
    (h : cursor.peek? = some kind) :
    ∃ token rest, cursor.values = token :: rest ∧ token.kind = kind := by
  obtain ⟨last, tokens⟩ := cursor
  cases tokens with
  | nil => simp [peek?] at h
  | cons token rest =>
      refine ⟨token.value, rest.map Located.value, rfl, ?_⟩
      simpa [peek?] using h

variable {cursor : Cursor}

/-- Taking a token takes it. -/
theorem take_values {parsed : Parsed Token cursor} (h : take cursor = .ok parsed) :
    cursor.values = parsed.value :: parsed.next.values := by
  unfold take at h
  split at h
  · cases h
  · next token rest htokens =>
      injection h with h
      subst h
      exact congrArg (List.map Located.value) htokens

/-- One token of the expected kind was taken. -/
theorem expect_took {kind : TokenKind} {parsed : Parsed Unit cursor}
    (h : expect kind cursor = .ok parsed) : parsed.Took fun _ => Written.Sign kind := by
  unfold expect at h
  split at h
  · cases h
  · obtain ⟨token, htoken, h⟩ := bind_eq_ok h
    have hvalues := take_values htoken
    split at h
    · next hkind =>
        injection h with h
        subst h
        refine ⟨[token.value], hvalues, token.value.lexeme, ?_⟩
        rw [← hkind]
    · cases h

/-- One identifier was taken. -/
theorem identifier_took {parsed : Parsed String cursor} (h : identifier cursor = .ok parsed) :
    parsed.Took fun name tokens => tokens = [⟨.identifier, name⟩] := by
  obtain ⟨token, htoken, h⟩ := bind_eq_ok h
  have hvalues := take_values htoken
  split at h
  · next hkind =>
      injection h with h
      subst h
      refine ⟨[token.value], hvalues, ?_⟩
      rw [← hkind]
      rfl
  · cases h

/-- A token of a known kind is that kind and its lexeme. -/
theorem token_eq {token : Token} {kind : TokenKind} (h : token.kind = kind) :
    token = ⟨kind, token.lexeme⟩ := by
  rw [← h]

/-- A token that is a literal is written as itself. -/
theorem written_literal {token : Token} (h : token.kind = .integer ∨ token.kind = .double) :
    Written.Literal token.lexeme [token] := by
  obtain ⟨kind, lexeme⟩ := token
  rcases h with h | h
  · subst h
    exact .integer lexeme
  · subst h
    exact .double lexeme

/-- A literal behind a minus sign that was taken before. -/
theorem negativeLiteral_took {start : Cursor} {sign : Parsed Token start}
    {literal : Parsed Token sign.next} (hsign : start.values = sign.value :: sign.next.values)
    (hminus : sign.value.kind = .minus)
    (hliteral : sign.next.values = literal.value :: literal.next.values)
    (hkind : literal.value.kind = .integer ∨ literal.value.kind = .double) :
    (sign.since (literal.as (Factor.negativeLiteral literal.value.lexeme))).Took
      Written.Factor := by
  refine ⟨[sign.value] ++ [literal.value], ?_, ?_⟩
  · rw [hsign, hliteral]
    rfl
  · exact .negative ⟨sign.value.lexeme, by rw [token_eq hminus]⟩ (written_literal hkind)

/-- A written factor was taken: a name, a literal, or a sign and a literal. -/
theorem factor_took {parsed : Parsed Factor cursor} (h : factor cursor = .ok parsed) :
    parsed.Took Written.Factor := by
  obtain ⟨token, htoken, h⟩ := bind_eq_ok h
  have hvalues := take_values htoken
  split at h
  · next hkind =>
      injection h with h
      subst h
      refine ⟨[token.value], hvalues, ?_⟩
      rw [token_eq hkind]
      exact .identifier _
  · next hkind =>
      injection h with h
      subst h
      exact ⟨[token.value], hvalues, .literal (written_literal (Or.inl hkind))⟩
  · next hkind =>
      injection h with h
      subst h
      exact ⟨[token.value], hvalues, .literal (written_literal (Or.inr hkind))⟩
  · next hkind =>
      obtain ⟨literal, hliteral, h⟩ := bind_eq_ok h
      have hnext := take_values hliteral
      split at h
      · next hinteger =>
          injection h with h
          subst h
          exact negativeLiteral_took hvalues hkind hnext (Or.inl hinteger)
      · next hdouble =>
          injection h with h
          subst h
          exact negativeLiteral_took hvalues hkind hnext (Or.inr hdouble)
      · cases h
  · cases h

/-- A written condition was taken: a factor, a comparison and a factor. -/
theorem condition_took {parsed : Parsed Condition cursor} (h : condition cursor = .ok parsed) :
    parsed.Took Written.Condition := by
  obtain ⟨left, hleft, h⟩ := bind_eq_ok h
  obtain ⟨token, htoken, h⟩ := bind_eq_ok h
  split at h
  · cases h
  · next comparison hcomparison =>
      obtain ⟨right, hright, h⟩ := bind_eq_ok h
      injection h with h
      subst h
      obtain ⟨leftTokens, hleftValues, hleftWritten⟩ := factor_took hleft
      obtain ⟨rightTokens, hrightValues, hrightWritten⟩ := factor_took hright
      have hsign := take_values htoken
      refine ⟨leftTokens ++ ([token.value] ++ rightTokens), ?_,
        .compare hleftWritten hcomparison ⟨token.value.lexeme, rfl⟩ hrightWritten⟩
      rw [hleftValues, hsign, hrightValues]
      simp [Parsed.since, Parsed.as]

/-- Behind a factor an operator and another factor were taken, or nothing. -/
theorem afterFactor_took {left : Parsed Factor cursor} (hleft : left.Took Written.Factor)
    {parsed : Parsed Expression cursor} (h : afterFactor left = .ok parsed) :
    parsed.Took Written.Expression := by
  obtain ⟨leftTokens, hleftValues, hleftWritten⟩ := hleft
  unfold afterFactor at h
  split at h
  · injection h with h
    subst h
    exact ⟨leftTokens, hleftValues, .factor hleftWritten⟩
  · next operation hoperation =>
      obtain ⟨token, htoken, h⟩ := bind_eq_ok h
      obtain ⟨right, hright, h⟩ := bind_eq_ok h
      injection h with h
      subst h
      obtain ⟨kind, hpeek, harithmetic⟩ := Option.bind_eq_some_iff.mp hoperation
      obtain ⟨first, rest, hfirst, hkind⟩ := Cursor.values_of_peek? hpeek
      obtain ⟨rightTokens, hrightValues, hrightWritten⟩ := factor_took hright
      have hsign := take_values htoken
      have htaken : token.value.kind = kind := by
        rw [hfirst] at hsign
        injection hsign with hsign
        rw [← hsign, hkind]
      refine ⟨leftTokens ++ ([token.value] ++ rightTokens), ?_,
        .arithmetic hleftWritten harithmetic ⟨token.value.lexeme, ?_⟩ hrightWritten⟩
      · rw [hleftValues, hsign, hrightValues]
        simp [Parsed.since, Parsed.as]
      · rw [token_eq htaken]

/-- A written expression was taken.  A sign before a name negates it, and a sign before a literal
belongs to the literal. -/
theorem expression_took {parsed : Parsed Expression cursor} (h : expression cursor = .ok parsed) :
    parsed.Took Written.Expression := by
  unfold expression at h
  split at h
  · next hpeek =>
      obtain ⟨sign, hsign, h⟩ := bind_eq_ok h
      obtain ⟨token, htoken, h⟩ := bind_eq_ok h
      obtain ⟨first, rest, hfirst, hkind⟩ := Cursor.values_of_peek? hpeek
      have hvalues := take_values hsign
      have hnext := take_values htoken
      have hminus : sign.value.kind = .minus := by
        rw [hfirst] at hvalues
        injection hvalues with hvalues
        rw [← hvalues, hkind]
      split at h
      · next hidentifier =>
          injection h with h
          subst h
          refine ⟨[sign.value] ++ [token.value], ?_, ?_⟩
          · rw [hvalues, hnext]
            rfl
          · rw [token_eq hidentifier]
            exact .negated _ ⟨sign.value.lexeme, by rw [token_eq hminus]⟩
      · next hinteger =>
          exact afterFactor_took (negativeLiteral_took hvalues hminus hnext (Or.inl hinteger)) h
      · next hdouble =>
          exact afterFactor_took (negativeLiteral_took hvalues hminus hnext (Or.inr hdouble)) h
      · cases h
  · obtain ⟨left, hleft, h⟩ := bind_eq_ok h
    exact afterFactor_took (factor_took hleft) h

/-- A written update was taken: an increment, a decrement, or a new value. -/
theorem update_took {parsed : Parsed Update cursor} (h : update cursor = .ok parsed) :
    parsed.Took Written.Update := by
  obtain ⟨token, htoken, h⟩ := bind_eq_ok h
  have hvalues := take_values htoken
  split at h
  · next hkind =>
      injection h with h
      subst h
      exact ⟨[token.value], hvalues, .increment ⟨token.value.lexeme, by rw [token_eq hkind]⟩⟩
  · next hkind =>
      injection h with h
      subst h
      exact ⟨[token.value], hvalues, .decrement ⟨token.value.lexeme, by rw [token_eq hkind]⟩⟩
  · next hkind =>
      obtain ⟨value, hvalue, h⟩ := bind_eq_ok h
      injection h with h
      subst h
      obtain ⟨tokens, htokens, hwritten⟩ := expression_took hvalue
      refine ⟨[token.value] ++ tokens, ?_,
        .set ⟨token.value.lexeme, by rw [token_eq hkind]⟩ hwritten⟩
      rw [hvalues, htokens]
      rfl
  · cases h

/-- A name and a written update were taken. -/
theorem untypedAssignment_took {parsed : Parsed Assignment cursor}
    (h : untypedAssignment cursor = .ok parsed) :
    parsed.Took fun assignment tokens => ∃ rest,
      tokens = ⟨.identifier, assignment.target⟩ :: rest ∧
        Written.Update assignment.update rest := by
  obtain ⟨target, htarget, h⟩ := bind_eq_ok h
  obtain ⟨change, hchange, h⟩ := bind_eq_ok h
  injection h with h
  subst h
  obtain ⟨name, hname, hidentifier⟩ := identifier_took htarget
  obtain ⟨tokens, htokens, hwritten⟩ := update_took hchange
  refine ⟨name ++ tokens, ?_, tokens, ?_, hwritten⟩
  · rw [hname, htokens]
    simp [Parsed.since, Parsed.as]
  · rw [hidentifier]
    rfl

/-- A written assignment was taken, with a type or without. -/
theorem assignment_took {parsed : Parsed Assignment cursor} (h : assignment cursor = .ok parsed) :
    parsed.Took Written.Assignment := by
  unfold assignment at h
  split at h
  · next hpeek =>
      obtain ⟨type, htype, h⟩ := bind_eq_ok h
      obtain ⟨body, hbody, h⟩ := bind_eq_ok h
      injection h with h
      subst h
      have hvalues := take_values htype
      obtain ⟨tokens, htokens, rest, rfl, hwritten⟩ := untypedAssignment_took hbody
      refine ⟨[type.value] ++ ⟨.identifier, body.value.target⟩ :: rest, ?_, ?_⟩
      · rw [hvalues, htokens]
        rfl
      · rcases hpeek with hpeek | hpeek
        · obtain ⟨first, _, hfirst, hkind⟩ := Cursor.values_of_peek? hpeek
          rw [hvalues] at hfirst
          injection hfirst with hfirst
          refine .int body.value.target ⟨type.value.lexeme, ?_⟩ hwritten
          rw [← token_eq (hfirst ▸ hkind)]
        · obtain ⟨first, _, hfirst, hkind⟩ := Cursor.values_of_peek? hpeek
          rw [hvalues] at hfirst
          injection hfirst with hfirst
          refine .double body.value.target ⟨type.value.lexeme, ?_⟩ hwritten
          rw [← token_eq (hfirst ▸ hkind)]
  · obtain ⟨tokens, htokens, rest, rfl, hwritten⟩ := untypedAssignment_took h
    exact ⟨_, htokens, .untyped parsed.value.target hwritten⟩

/-- A written assignment and its semicolon were taken. -/
theorem simple_took {parsed : Parsed Statement cursor} (h : simple cursor = .ok parsed) :
    parsed.Took Written.Statement := by
  obtain ⟨change, hchange, h⟩ := bind_eq_ok h
  obtain ⟨closed, hclosed, h⟩ := bind_eq_ok h
  obtain ⟨sign, hsign, rfl⟩ := map_eq_ok hclosed
  injection h with h
  subst h
  obtain ⟨tokens, htokens, hwritten⟩ := assignment_took hchange
  obtain ⟨signTokens, hsignTokens, hsignWritten⟩ := expect_took hsign
  refine ⟨tokens ++ signTokens, ?_, .assign hwritten hsignWritten⟩
  rw [htokens, hsignTokens]
  simp [Parsed.since, Parsed.as]

/-! ## Statements and blocks -/

/-- A condition in parentheses, read in three steps behind a word. -/
theorem guard_took {start : Cursor} {word : Parsed Unit start} {opened : Parsed Unit start}
    {test : Parsed Condition start} {closed : Parsed Unit start}
    (hopened : word.since <$> expect .openParen word.next = .ok opened)
    (htest : opened.since <$> condition opened.next = .ok test)
    (hclosed : test.since <$> expect .closeParen test.next = .ok closed) :
    ∃ head, word.next.values = head ++ closed.next.values ∧ Written.Guard test.value head := by
  obtain ⟨first, hfirst, rfl⟩ := map_eq_ok hopened
  obtain ⟨middle, hmiddle, rfl⟩ := map_eq_ok htest
  obtain ⟨last, hlast, rfl⟩ := map_eq_ok hclosed
  obtain ⟨openedTokens, hopenedTokens, hopenedWritten⟩ := expect_took hfirst
  obtain ⟨tokens, htokens, hwritten⟩ := condition_took hmiddle
  obtain ⟨closedTokens, hclosedTokens, hclosedWritten⟩ := expect_took hlast
  refine ⟨openedTokens ++ (tokens ++ closedTokens), ?_,
    .parens hopenedWritten hwritten hclosedWritten⟩
  rw [hopenedTokens, show first.next.values = _ from htokens,
    show middle.next.values = _ from hclosedTokens]
  simp [Parsed.since]

/-- The head of a `for` loop, read in seven steps behind a word. -/
theorem forHead_took {start : Cursor} {word : Parsed Unit start} {opened : Parsed Unit start}
    {init : Parsed Assignment start} {first : Parsed Unit start} {test : Parsed Condition start}
    {second : Parsed Unit start} {step : Parsed Assignment start} {closed : Parsed Unit start}
    (hopened : word.since <$> expect .openParen word.next = .ok opened)
    (hinit : opened.since <$> assignment opened.next = .ok init)
    (hfirst : init.since <$> expect .semicolon init.next = .ok first)
    (htest : first.since <$> condition first.next = .ok test)
    (hsecond : test.since <$> expect .semicolon test.next = .ok second)
    (hstep : second.since <$> assignment second.next = .ok step)
    (hclosed : step.since <$> expect .closeParen step.next = .ok closed) :
    ∃ head, word.next.values = head ++ closed.next.values ∧
      Written.ForHead init.value test.value step.value head := by
  obtain ⟨opened', hopened', rfl⟩ := map_eq_ok hopened
  obtain ⟨init', hinit', rfl⟩ := map_eq_ok hinit
  obtain ⟨first', hfirst', rfl⟩ := map_eq_ok hfirst
  obtain ⟨test', htest', rfl⟩ := map_eq_ok htest
  obtain ⟨second', hsecond', rfl⟩ := map_eq_ok hsecond
  obtain ⟨step', hstep', rfl⟩ := map_eq_ok hstep
  obtain ⟨closed', hclosed', rfl⟩ := map_eq_ok hclosed
  obtain ⟨t₁, ht₁, hw₁⟩ := expect_took hopened'
  obtain ⟨t₂, ht₂, hw₂⟩ := assignment_took hinit'
  obtain ⟨t₃, ht₃, hw₃⟩ := expect_took hfirst'
  obtain ⟨t₄, ht₄, hw₄⟩ := condition_took htest'
  obtain ⟨t₅, ht₅, hw₅⟩ := expect_took hsecond'
  obtain ⟨t₆, ht₆, hw₆⟩ := assignment_took hstep'
  obtain ⟨t₇, ht₇, hw₇⟩ := expect_took hclosed'
  refine ⟨t₁ ++ (t₂ ++ (t₃ ++ (t₄ ++ (t₅ ++ (t₆ ++ t₇))))), ?_,
    .parens hw₁ hw₂ hw₃ hw₄ hw₅ hw₆ hw₇⟩
  simp only [Parsed.since] at ht₁ ht₂ ht₃ ht₄ ht₅ ht₆ ht₇ ⊢
  rw [ht₁, ht₂, ht₃, ht₄, ht₅, ht₆, ht₇]
  simp

/-- The rules that call each other take what they return at a cursor. -/
structure Cursor.ReadsRight (cursor : Cursor) : Prop where
  branch : ∀ {parsed : Parsed Statement cursor}, cursor.peek? = some (.keyword .kwIf) →
    statement cursor = .ok parsed → parsed.Took Written.Branch
  statement : ∀ {parsed : Parsed Statement cursor},
    statement cursor = .ok parsed → parsed.Took Written.Statement
  block : ∀ {parsed : Parsed Statement cursor},
    block cursor = .ok parsed → parsed.Took Written.Block
  blockRest : ∀ {parsed : Parsed Statement cursor},
    blockRest cursor = .ok parsed → parsed.Took fun body taken => ∃ tokens closed,
      taken = tokens ++ closed ∧ Written.Statements body tokens ∧ Written.Sign .closeCurly closed

section Steps

variable (ih : ∀ later : Cursor, later.tokens.length < cursor.tokens.length → later.ReadsRight)

include ih

/-- The block behind a head, with everything that was taken before it. -/
theorem body_took {α : Type} {closed : Parsed α cursor} {body : Parsed Statement cursor}
    (hbody : closed.since <$> block closed.next = .ok body) :
    ∃ tokens, closed.next.values = tokens ++ body.next.values ∧
      Written.Block body.value tokens := by
  obtain ⟨inner, hinner, rfl⟩ := map_eq_ok hbody
  exact (ih closed.next closed.shorter).block hinner

/-- A written branch was taken, if what is read later is taken as it is written. -/
theorem branch_took_of_later {parsed : Parsed Statement cursor}
    (hpeek : cursor.peek? = some (.keyword .kwIf)) (h : statement cursor = .ok parsed) :
    parsed.Took Written.Branch := by
  rw [statement, hpeek] at h
  obtain ⟨word, hword, h⟩ := bind_eq_ok h
  obtain ⟨opened, hopened, h⟩ := bind_eq_ok h
  obtain ⟨test, htest, h⟩ := bind_eq_ok h
  obtain ⟨closed, hclosed, h⟩ := bind_eq_ok h
  obtain ⟨body, hbody, h⟩ := bind_eq_ok h
  obtain ⟨wordTokens, hwordTokens, hwordWritten⟩ := expect_took hword
  obtain ⟨head, hhead, hguard⟩ := guard_took hopened htest hclosed
  obtain ⟨blockTokens, hblockTokens, hblock⟩ := body_took ih hbody
  split at h
  · obtain ⟨otherwise, hotherwise, h⟩ := bind_eq_ok h
    obtain ⟨other, hother, h⟩ := bind_eq_ok h
    injection h with h
    subst h
    obtain ⟨elseWord, helse, rfl⟩ := map_eq_ok hotherwise
    obtain ⟨elseTokens, helseTokens, helseWritten⟩ := expect_took helse
    obtain ⟨inner, hinner, rfl⟩ := map_eq_ok hother
    have hlater := ih elseWord.next (body.since elseWord).shorter
    split at hinner
    · next hif =>
        obtain ⟨otherTokens, hotherTokens, hbranch⟩ := hlater.branch hif hinner
        refine ⟨_, ?_, .ifElseIf hwordWritten hguard hblock helseWritten hbranch⟩
        rw [hwordTokens, hhead, hblockTokens, helseTokens, hotherTokens]
        simp [Parsed.since, Parsed.as]
    · obtain ⟨otherTokens, hotherTokens, hotherBlock⟩ := hlater.block hinner
      refine ⟨_, ?_, .ifElse hwordWritten hguard hblock helseWritten hotherBlock⟩
      rw [hwordTokens, hhead, hblockTokens, helseTokens, hotherTokens]
      simp [Parsed.since, Parsed.as]
  · injection h with h
    subst h
    refine ⟨_, ?_, .ifThen hwordWritten hguard hblock⟩
    rw [hwordTokens, hhead, hblockTokens]
    simp [Parsed.as]

/-- A written statement was taken, if what is read later is taken as it is written.  The first
token decides which one. -/
theorem statement_took_of_later {parsed : Parsed Statement cursor}
    (h : statement cursor = .ok parsed) : parsed.Took Written.Statement := by
  by_cases hif : cursor.peek? = some (.keyword .kwIf)
  · obtain ⟨tokens, htokens, hbranch⟩ := branch_took_of_later ih hif h
    exact ⟨tokens, htokens, .branch hbranch⟩
  rw [statement] at h
  split at h
  · next hpeek => exact absurd hpeek hif
  · obtain ⟨word, hword, h⟩ := bind_eq_ok h
    obtain ⟨opened, hopened, h⟩ := bind_eq_ok h
    obtain ⟨test, htest, h⟩ := bind_eq_ok h
    obtain ⟨closed, hclosed, h⟩ := bind_eq_ok h
    obtain ⟨body, hbody, h⟩ := bind_eq_ok h
    injection h with h
    subst h
    obtain ⟨wordTokens, hwordTokens, hwordWritten⟩ := expect_took hword
    obtain ⟨head, hhead, hguard⟩ := guard_took hopened htest hclosed
    obtain ⟨blockTokens, hblockTokens, hblock⟩ := body_took ih hbody
    refine ⟨_, ?_, .whileLoop hwordWritten hguard hblock⟩
    rw [hwordTokens, hhead, hblockTokens]
    simp [Parsed.as]
  · obtain ⟨word, hword, h⟩ := bind_eq_ok h
    obtain ⟨opened, hopened, h⟩ := bind_eq_ok h
    obtain ⟨init, hinit, h⟩ := bind_eq_ok h
    obtain ⟨first, hfirst, h⟩ := bind_eq_ok h
    obtain ⟨test, htest, h⟩ := bind_eq_ok h
    obtain ⟨second, hsecond, h⟩ := bind_eq_ok h
    obtain ⟨step, hstep, h⟩ := bind_eq_ok h
    obtain ⟨closed, hclosed, h⟩ := bind_eq_ok h
    obtain ⟨body, hbody, h⟩ := bind_eq_ok h
    injection h with h
    subst h
    obtain ⟨wordTokens, hwordTokens, hwordWritten⟩ := expect_took hword
    obtain ⟨head, hhead, hforHead⟩ :=
      forHead_took hopened hinit hfirst htest hsecond hstep hclosed
    obtain ⟨blockTokens, hblockTokens, hblock⟩ := body_took ih hbody
    refine ⟨_, ?_, .forLoop hwordWritten hforHead hblock⟩
    rw [hwordTokens, hhead, hblockTokens]
    simp [Parsed.as]
  · exact simple_took h
  · exact simple_took h
  · exact simple_took h
  · obtain ⟨token, htoken, h⟩ := bind_eq_ok h
    cases h

/-- A written block was taken, if what is read later is taken as it is written. -/
theorem block_took_of_later {parsed : Parsed Statement cursor} (h : block cursor = .ok parsed) :
    parsed.Took Written.Block := by
  rw [block] at h
  obtain ⟨opened, hopened, h⟩ := bind_eq_ok h
  obtain ⟨rest, hrest, rfl⟩ := map_eq_ok h
  obtain ⟨openedTokens, hopenedTokens, hopenedWritten⟩ := expect_took hopened
  obtain ⟨taken, htaken, tokens, closedTokens, rfl, hstatements, hclosed⟩ :=
    (ih opened.next opened.shorter).blockRest hrest
  refine ⟨_, ?_, .braces hopenedWritten hstatements hclosed⟩
  rw [hopenedTokens, htaken]
  simp [Parsed.since]

/-- The statements of a block and the brace that closes it were taken, if what is read later is
taken as it is written. -/
theorem blockRest_took_of_later {parsed : Parsed Statement cursor}
    (h : blockRest cursor = .ok parsed) :
    parsed.Took fun body taken => ∃ tokens closed,
      taken = tokens ++ closed ∧ Written.Statements body tokens ∧
        Written.Sign .closeCurly closed := by
  rw [blockRest] at h
  split at h
  · obtain ⟨closed, hclosed, h⟩ := bind_eq_ok h
    injection h with h
    subst h
    obtain ⟨tokens, htokens, hwritten⟩ := expect_took hclosed
    exact ⟨tokens, htokens, [], tokens, rfl, .nil, hwritten⟩
  · obtain ⟨first, hfirst, h⟩ := bind_eq_ok h
    obtain ⟨rest, hrest, h⟩ := bind_eq_ok h
    obtain ⟨others, hothers, rfl⟩ := map_eq_ok hrest
    injection h with h
    subst h
    obtain ⟨firstTokens, hfirstTokens, hfirstWritten⟩ := statement_took_of_later ih hfirst
    obtain ⟨taken, htaken, tokens, closed, rfl, hstatements, hclosed⟩ :=
      (ih first.next first.shorter).blockRest hothers
    refine ⟨firstTokens ++ (tokens ++ closed), ?_, firstTokens ++ tokens, closed, ?_,
      .cons hfirstWritten hstatements, hclosed⟩
    · rw [hfirstTokens, htaken]
      simp [Parsed.since, Parsed.as]
    · rw [List.append_assoc]

end Steps

/-- **Every cursor is read right.**  A rule reads what follows its first token at
cursors with fewer tokens, so the induction is on their number. -/
theorem readsRight (cursor : Cursor) : cursor.ReadsRight := by
  have ih : ∀ later : Cursor, later.tokens.length < cursor.tokens.length → later.ReadsRight :=
    fun later _ => readsRight later
  exact {
    branch := branch_took_of_later ih
    statement := statement_took_of_later ih
    block := block_took_of_later ih
    blockRest := blockRest_took_of_later ih }
termination_by cursor.tokens.length

/-- **What was parsed is written there,** from the first token to the last. -/
theorem statements_isWritten (cursor : Cursor) {program : Statement}
    (h : statements cursor = .ok program) : IsWritten program cursor.values := by
  rw [statements] at h
  split at h
  · next hnil =>
      injection h with h
      subst h
      rw [Cursor.values, hnil]
      exact .nil
  · obtain ⟨first, hfirst, h⟩ := bind_eq_ok h
    obtain ⟨rest, hrest, h⟩ := bind_eq_ok h
    injection h with h
    subst h
    obtain ⟨tokens, htokens, hwritten⟩ := (readsRight cursor).statement hfirst
    rw [htokens]
    exact .cons hwritten (statements_isWritten first.next hrest)
termination_by cursor.tokens.length
decreasing_by exact first.shorter

/-- **A parsed program is written with its tokens.** -/
theorem parse_isWritten {tokens : List (Located Token)} {program : Statement}
    (h : parse tokens = .ok program) : IsWritten program (tokens.map Located.value) :=
  statements_isWritten ⟨.start, tokens⟩ h

end Program

/-- What compiles was parsed. -/
theorem parse_of_compileTokens {tokens : List (Located Token)} {atoms : List Atom}
    (h : compileTokens tokens = .ok atoms) :
    ∃ program, Program.parse tokens = .ok program ∧ atoms = program.atoms := by
  unfold compileTokens at h
  split at h
  · next program hprogram =>
      injection h with h
      exact ⟨program, hprogram, h.symm⟩
  · cases h

end AtomCompiler
