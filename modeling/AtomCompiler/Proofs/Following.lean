import AtomCompiler.Execution.Steps
import AtomCompiler.Program.Expectation
import AtomCompiler.Proofs.Parsing

/-!
# The parser does what is expected

The parser takes the same tokens in the same order as the machine that knows only
what is expected next, and it gives up where the machine is stuck, with an error about
the token there.

* `Follows` — a rule of the parser does what the machine does with some parts;
* `take_follows`, `Follows.bind` — taking a token, and one rule after another;
* `followed` — the rules that call each other;
* `reaches_of_statements_ok`, `refused_of_statements_error` — whole programs.
-/

namespace AtomCompiler

/-- The token that a parse error is about; there is none if the tokens ended too
early. -/
def ParseError.found? : ParseError → Option Token
  | unexpectedToken _ found => some found
  | missingToken _ => none
  | expectedStatement found => some found
  | expectedFactor found => some found
  | expectedComparison found => some found
  | expectedAssignment found => some found
  | unexpectedEnd => none

namespace Program

variable {α β : Type} {cursor start : Cursor} {part : Part} {parts later : List Part}

/-! ## Steps of the machine -/

/-- The machine is stuck, and this error is about the token that it is stuck at. -/
structure Expecting.Refused (state : Expecting) (error : Located ParseError) : Prop where
  refuses : ∃ part later, state.parts = part :: later ∧ part.move state.cursor.peek? = .refuse
  found : error.value.found? = state.cursor.tokens.head?.map Located.value
  span : error.span = (state.cursor.tokens.head?.map Located.span).getD state.cursor.last

/-- The machine replaces what is expected. -/
theorem step?_of_become (h : part.move cursor.peek? = .become parts) :
    Expecting.step? ⟨part :: later, cursor⟩ = some ⟨parts ++ later, cursor⟩ := by
  simp [Expecting.step?, h]

/-- The machine takes a token. -/
theorem step?_of_take {last : Span} {token : Located Token} {rest : List (Located Token)}
    (h : part.move (some token.value.kind) = .take parts) :
    Expecting.step? ⟨part :: later, ⟨last, token :: rest⟩⟩ =
      some ⟨parts ++ later, ⟨token.span, rest⟩⟩ := by
  simp [Expecting.step?, Cursor.peek?, h]

/-- The machine is stuck. -/
theorem step?_of_refuse (h : part.move cursor.peek? = .refuse) :
    Expecting.step? ⟨part :: later, cursor⟩ = none := by
  simp [Expecting.step?, h]

/-! ## The parser follows the machine -/

/-- A rule succeeds where a run of the machine has only these parts left, or fails
where the machine is stuck. -/
def Arrives (state : Expecting) (later : List Part) (reading : Reading α start) : Prop :=
  match reading with
  | .ok parsed => Reaches Expecting.step? state ⟨later, parsed.next⟩
  | .error error => ∃ stuck, Reaches Expecting.step? state stuck ∧ stuck.Refused error

/-- What a rule arrives at from a later state, it arrives at from an earlier one. -/
theorem Arrives.after {state next : Expecting} {reading : Reading α start}
    (hreaches : Reaches Expecting.step? state next) (h : Arrives next later reading) :
    Arrives state later reading := by
  cases reading with
  | ok parsed => exact hreaches.trans h
  | error error =>
      obtain ⟨stuck, hstuck, hrefused⟩ := h
      exact ⟨stuck, hreaches.trans hstuck, hrefused⟩

/-- A rule takes the tokens that the machine takes for some parts, whatever is
expected behind them. -/
def Follows (parts : List Part) (cursor : Cursor) (reading : Reading α start) : Prop :=
  ∀ later, Arrives ⟨parts ++ later, cursor⟩ later reading

/-- A rule that takes nothing follows the machine that expects nothing. -/
theorem follows_ok {parsed : Parsed α start} : Follows [] parsed.next (.ok parsed) :=
  fun _ => Reaches.refl _ _

/-- One rule after another. -/
theorem Follows.bind {origin : Cursor} {reading : Reading α start}
    {next : Parsed α start → Reading β origin} (h : Follows parts cursor reading)
    (hnext : ∀ parsed, Follows later parsed.next (next parsed)) :
    Follows (parts ++ later) cursor (reading >>= next) := by
  intro last
  rw [List.append_assoc]
  have hfirst := h (later ++ last)
  cases reading with
  | error error => exact hfirst
  | ok parsed => exact (hnext parsed last).after hfirst

/-- A rule that goes on where another one stopped. -/
theorem Follows.since {previous : Parsed α start} {reading : Reading β previous.next}
    (h : Follows parts previous.next reading) :
    Follows parts previous.next (previous.since <$> reading) := by
  cases reading with
  | error error => exact h
  | ok parsed => exact h

/-- A part is replaced before a rule is followed. -/
theorem Follows.of_become {reading : Reading α start} {before : List Part}
    (hmove : part.move cursor.peek? = .become before)
    (h : Follows (before ++ parts) cursor reading) : Follows (part :: parts) cursor reading := by
  intro later
  apply (h later).after
  rw [List.append_assoc]
  exact (Reaches.refl _ _).head (step?_of_become hmove)

/-- A token is taken before a rule is followed. -/
theorem Follows.of_take {reading : Reading α start} {before : List Part} {last : Span}
    {token : Located Token} {rest : List (Located Token)}
    (hmove : part.move (some token.value.kind) = .take before)
    (h : Follows (before ++ parts) ⟨token.span, rest⟩ reading) :
    Follows (part :: parts) ⟨last, token :: rest⟩ reading := by
  intro later
  apply (h later).after
  rw [List.append_assoc]
  exact (Reaches.refl _ _).head (step?_of_take hmove)

/-- A rule fails where the machine is stuck at once. -/
theorem Follows.of_refuse {error : Located ParseError} (hmove : part.move cursor.peek? = .refuse)
    (hfound : error.value.found? = cursor.tokens.head?.map Located.value)
    (hspan : error.span = (cursor.tokens.head?.map Located.span).getD cursor.last) :
    Follows (part :: parts) cursor (.error error : Reading α start) :=
  fun later => ⟨_, Reaches.refl _ _, ⟨part, parts ++ later, rfl, hmove⟩, hfound, hspan⟩

/-- What a rule does with a token that it has taken is what the machine does. -/
inductive Answers (part : Part) (parts : List Part) (token : Parsed Token cursor) :
    Reading α start → Prop
  | took {kind : TokenKind} {before : List Part} {reading : Reading α start} :
      token.value.kind = kind → part.move (some kind) = .take before →
      Follows (before ++ parts) token.next reading → Answers part parts token reading
  | refused {error : ParseError} :
      part.move (some token.value.kind) = .refuse → error.found? = some token.value →
      Answers part parts token (fail token.next error)

/-- A rule that takes a token and goes on. -/
theorem take_follows {next : Parsed Token cursor → Reading α start}
    (hend : cursor.peek? = none → part.move none = .refuse)
    (hnext : ∀ token : Parsed Token cursor, cursor.peek? = some token.value.kind →
      Answers part parts token (next token)) :
    Follows (part :: parts) cursor (take cursor >>= next) := by
  obtain ⟨last, tokens⟩ := cursor
  cases tokens with
  | nil => exact Follows.of_refuse (hend rfl) rfl rfl
  | cons token rest =>
      let taken : Parsed Token ⟨last, token :: rest⟩ :=
        ⟨token.value, ⟨token.span, rest⟩, Nat.lt_succ_self _⟩
      have hanswer : Answers part parts taken (next taken) := hnext taken rfl
      change Follows _ _ (next taken)
      generalize next taken = reading at hanswer
      cases hanswer with
      | took hkind hmove h =>
          subst hkind
          exact Follows.of_take hmove h
      | refused hmove hfound => exact Follows.of_refuse hmove hfound rfl

/-! ### Signs and expressions -/

/-- A rule for one token follows the machine. -/
theorem expect_follows (kind : TokenKind) (cursor : Cursor) :
    Follows [.sign kind] cursor (expect kind cursor) := by
  unfold expect
  split
  · next hnil =>
      obtain ⟨last, tokens⟩ := cursor
      subst hnil
      exact Follows.of_refuse rfl rfl rfl
  · apply take_follows (fun _ => rfl)
    intro token _
    split
    · next hkind => exact .took hkind (if_pos rfl) follows_ok
    · next hkind => exact .refused (by simp [Part.move, hkind]) rfl

/-- The rule for identifiers follows the machine. -/
theorem identifier_follows (cursor : Cursor) :
    Follows [.sign .identifier] cursor (identifier cursor) := by
  apply take_follows (fun _ => rfl)
  intro token _
  split
  · next hkind => exact .took hkind rfl follows_ok
  · exact .refused (by grind [Part.move]) rfl

/-- The rule for factors follows the machine, with a sign or without. -/
theorem factor_follows (cursor : Cursor) : Follows [.factor] cursor (factor cursor) := by
  apply take_follows (fun _ => rfl)
  intro token _
  split
  · next hkind => exact .took hkind rfl follows_ok
  · next hkind => exact .took hkind rfl follows_ok
  · next hkind => exact .took hkind rfl follows_ok
  · next hkind =>
      apply Answers.took hkind rfl
      apply take_follows (fun _ => rfl)
      intro literal _
      split
      · next hkind => exact .took hkind rfl follows_ok
      · next hkind => exact .took hkind rfl follows_ok
      · exact .refused (by grind [Part.move]) rfl
  · exact .refused (by grind [Part.move]) rfl

/-- The rule for conditions follows the machine. -/
theorem condition_follows (cursor : Cursor) :
    Follows [.condition] cursor (condition cursor) := by
  apply Follows.of_become rfl
  apply (factor_follows cursor).bind
  intro left
  apply take_follows (fun _ => rfl)
  intro token _
  split
  · next hcomparison => exact .refused (by simp [Part.move, hcomparison]) rfl
  · next comparison hcomparison =>
      refine .took rfl (if_pos (by simp [hcomparison])) ?_
      apply (factor_follows token.next).bind
      intro right
      exact follows_ok

/-- What comes behind a factor is an operator and another factor, or nothing more. -/
theorem afterFactor_follows (left : Parsed Factor cursor) :
    Follows [.afterFactor] left.next (afterFactor left) := by
  unfold afterFactor
  split
  · next hoperation =>
      refine Follows.of_become (if_neg (by simp [hoperation])) ?_
      exact follows_ok
  · next operation hoperation =>
      -- an operator was seen, so the tokens have not ended
      apply take_follows
      · intro hnone
        simp [hnone] at hoperation
      · intro token hpeek
        rw [hpeek, Option.bind_some] at hoperation
        refine .took rfl (if_pos (by simp [hoperation])) ?_
        apply (factor_follows token.next).bind
        intro right
        exact follows_ok

/-- The rule for expressions follows the machine. -/
theorem expression_follows (cursor : Cursor) :
    Follows [.expression] cursor (expression cursor) := by
  unfold expression
  split
  · next hminus =>
      apply take_follows (fun hnone => absurd (hnone.symm.trans hminus) (by simp))
      intro sign hpeek
      rw [hpeek, Option.some.injEq] at hminus
      apply Answers.took hminus rfl
      apply take_follows (fun _ => rfl)
      intro token _
      split
      · next hkind => exact .took hkind rfl follows_ok
      · next hkind => exact .took hkind rfl (afterFactor_follows _)
      · next hkind => exact .took hkind rfl (afterFactor_follows _)
      · exact .refused (by grind [Part.move]) rfl
  · next hminus =>
      refine Follows.of_become (if_neg hminus) ?_
      apply (factor_follows cursor).bind
      exact afterFactor_follows

/-- The rule for updates follows the machine. -/
theorem update_follows (cursor : Cursor) : Follows [.change] cursor (update cursor) := by
  apply take_follows (fun _ => rfl)
  intro token _
  split
  · next hkind => exact .took hkind rfl follows_ok
  · next hkind => exact .took hkind rfl follows_ok
  · next hkind =>
      apply Answers.took hkind rfl
      apply (expression_follows token.next).bind
      intro value
      exact follows_ok
  · exact .refused (by grind [Part.move]) rfl

/-- The rule for assignments without a type follows the machine. -/
theorem untypedAssignment_follows (cursor : Cursor) :
    Follows [.sign .identifier, .change] cursor (untypedAssignment cursor) := by
  apply (identifier_follows cursor).bind
  intro target
  apply (update_follows target.next).bind
  intro change
  exact follows_ok

/-- The rule for assignments follows the machine: a type first, or at once the name. -/
theorem assignment_follows (cursor : Cursor) :
    Follows [.assignment] cursor (assignment cursor) := by
  unfold assignment
  split
  · next htype =>
      apply take_follows
      · intro hnone
        simp [hnone] at htype
      · intro type hpeek
        rw [hpeek] at htype
        refine .took rfl (if_pos htype) ?_
        apply (untypedAssignment_follows type.next).bind
        intro body
        exact follows_ok
  · next htype =>
      refine Follows.of_become (if_neg htype) ?_
      exact untypedAssignment_follows cursor

/-- An assignment with its semicolon follows the machine. -/
theorem simple_follows (cursor : Cursor) :
    Follows [.assignment, .sign .semicolon] cursor (simple cursor) := by
  apply (assignment_follows cursor).bind
  intro change
  apply (expect_follows .semicolon change.next).since.bind
  intro closed
  exact follows_ok

/-! ### Statements and blocks -/

/-- The rules that call each other follow the machine at a cursor. -/
structure Cursor.Followed (cursor : Cursor) : Prop where
  branch : cursor.peek? = some (.keyword .kwIf) → Follows [.branch] cursor (statement cursor)
  statement : Follows [.statement] cursor (statement cursor)
  block : Follows [.block] cursor (block cursor)
  blockRest : Follows [.blockRest] cursor (blockRest cursor)

/-- What stands behind `else` is a block, or a branch without one around it. -/
theorem Cursor.Followed.otherwise (h : cursor.Followed) :
    Follows [.otherwise] cursor
      (if cursor.peek? = some (.keyword .kwIf) then Program.statement cursor
        else Program.block cursor) := by
  split
  · next hif =>
      refine Follows.of_become (if_pos hif) ?_
      exact h.branch hif
  · next hif =>
      refine Follows.of_become (if_neg hif) ?_
      exact h.block

section Steps

variable (ih : ∀ later : Cursor, later.tokens.length < cursor.tokens.length → later.Followed)

include ih

/-- The rule for branches follows the machine if the rules for all that comes later do. -/
theorem branch_follows_of_later (hpeek : cursor.peek? = some (.keyword .kwIf)) :
    Follows [.branch] cursor (statement cursor) := by
  rw [statement, hpeek]
  apply Follows.of_become rfl
  apply (expect_follows _ cursor).bind
  intro word
  apply (expect_follows _ word.next).since.bind
  intro opened
  apply (condition_follows opened.next).since.bind
  intro test
  apply (expect_follows _ test.next).since.bind
  intro closed
  apply (ih closed.next closed.shorter).block.since.bind
  intro body
  -- both decide by the next token whether there is another branch
  split
  · next helse =>
      refine Follows.of_become (if_pos helse) ?_
      apply (expect_follows _ body.next).since.bind
      intro word
      apply (ih word.next word.shorter).otherwise.since.bind
      intro other
      exact follows_ok
  · next helse =>
      refine Follows.of_become (if_neg helse) ?_
      exact follows_ok

/-- The rule for statements follows the machine if the rules for all that comes later do.  Both
decide by the next token what the statement is. -/
theorem statement_follows_of_later : Follows [.statement] cursor (statement cursor) := by
  by_cases hif : cursor.peek? = some (.keyword .kwIf)
  · refine Follows.of_become (if_pos hif) ?_
    exact branch_follows_of_later ih hif
  rw [statement]
  split
  · next hpeek => exact absurd hpeek hif
  · next hpeek =>
      apply Follows.of_become (by rw [hpeek]; rfl)
      apply (expect_follows _ cursor).bind
      intro word
      apply (expect_follows _ word.next).since.bind
      intro opened
      apply (condition_follows opened.next).since.bind
      intro test
      apply (expect_follows _ test.next).since.bind
      intro closed
      apply (ih closed.next closed.shorter).block.since.bind
      intro body
      exact follows_ok
  · next hpeek =>
      apply Follows.of_become (by rw [hpeek]; rfl)
      apply (expect_follows _ cursor).bind
      intro word
      apply (expect_follows _ word.next).since.bind
      intro opened
      apply (assignment_follows opened.next).since.bind
      intro init
      apply (expect_follows _ init.next).since.bind
      intro first
      apply (condition_follows first.next).since.bind
      intro test
      apply (expect_follows _ test.next).since.bind
      intro second
      apply (assignment_follows second.next).since.bind
      intro step
      apply (expect_follows _ step.next).since.bind
      intro closed
      apply (ih closed.next closed.shorter).block.since.bind
      intro body
      exact follows_ok
  · next hpeek =>
      apply Follows.of_become (by rw [hpeek]; rfl)
      exact simple_follows cursor
  · next hpeek =>
      apply Follows.of_become (by rw [hpeek]; rfl)
      exact simple_follows cursor
  · next hpeek =>
      apply Follows.of_become (by rw [hpeek]; rfl)
      exact simple_follows cursor
  -- no statement begins with this token; the parser takes it and fails there
  · apply take_follows (fun _ => rfl)
    intro token hpeek
    exact .refused (by grind [Part.move]) rfl

/-- The rule for blocks follows the machine if the rules for all that comes later do. -/
theorem block_follows_of_later : Follows [.block] cursor (block cursor) := by
  rw [block]
  apply Follows.of_become rfl
  apply (expect_follows _ cursor).bind
  intro opened
  exact (ih opened.next opened.shorter).blockRest.since

/-- The rule for what is left of a block follows the machine if the rules for all that comes later
do. -/
theorem blockRest_follows_of_later : Follows [.blockRest] cursor (blockRest cursor) := by
  rw [blockRest]
  split
  · next hpeek =>
      refine Follows.of_become (if_pos hpeek) ?_
      apply (expect_follows _ cursor).bind
      intro closed
      exact follows_ok
  · next hpeek =>
      refine Follows.of_become (if_neg hpeek) ?_
      apply (statement_follows_of_later ih).bind
      intro first
      apply (ih first.next first.shorter).blockRest.since.bind
      intro rest
      exact follows_ok

end Steps

/-- **Every rule follows the machine.**  A rule reads what follows its first token at
cursors with fewer tokens, so the induction is on their number. -/
theorem followed (cursor : Cursor) : cursor.Followed := by
  have ih : ∀ later : Cursor, later.tokens.length < cursor.tokens.length → later.Followed :=
    fun later _ => followed later
  exact {
    branch := branch_follows_of_later ih
    statement := statement_follows_of_later ih
    block := block_follows_of_later ih
    blockRest := blockRest_follows_of_later ih }
termination_by cursor.tokens.length

/-- The first statement of a program that is not at its end. -/
theorem arrives_statement (h : cursor.tokens ≠ []) :
    Arrives ⟨[.program], cursor⟩ [.program] (statement cursor) := by
  have hpeek : cursor.peek? ≠ none := by simpa [Cursor.peek?] using h
  have hmove : Part.program.move cursor.peek? = .become [.statement, .program] := if_neg hpeek
  apply ((followed cursor).statement [.program]).after
  exact (Reaches.refl _ _).head (step?_of_become hmove)

/-- When a program has been read, the machine expects nothing more. -/
theorem reaches_of_statements_ok (cursor : Cursor) {program : Statement}
    (h : statements cursor = .ok program) :
    ∃ finish, Reaches Expecting.step? ⟨[.program], cursor⟩ ⟨[], finish⟩ := by
  rw [statements] at h
  split at h
  · next hnil =>
      have hpeek : cursor.peek? = none := by simp [Cursor.peek?, hnil]
      exact ⟨cursor, (Reaches.refl _ _).head (step?_of_become (if_pos hpeek))⟩
  · next hne =>
      obtain ⟨first, hfirst, h⟩ := bind_eq_ok h
      obtain ⟨rest, hrest, -⟩ := bind_eq_ok h
      have harrives := arrives_statement hne
      rw [hfirst] at harrives
      obtain ⟨finish, hfinish⟩ := reaches_of_statements_ok first.next hrest
      exact ⟨finish, harrives.trans hfinish⟩
termination_by cursor.tokens.length
decreasing_by exact first.shorter

/-- Where a program cannot be read on, the machine is stuck. -/
theorem refused_of_statements_error (cursor : Cursor) {error : Located ParseError}
    (h : statements cursor = .error error) :
    ∃ stuck, Reaches Expecting.step? ⟨[.program], cursor⟩ stuck ∧ stuck.Refused error := by
  rw [statements] at h
  split at h
  · cases h
  · next hne =>
      have harrives := arrives_statement hne
      cases hfirst : statement cursor with
      | error found =>
          rw [hfirst] at h harrives
          cases h
          exact harrives
      | ok first =>
          rw [hfirst] at h harrives
          cases hrest : statements first.next with
          | error found =>
              simp only [bind, Except.bind, hrest] at h
              cases h
              obtain ⟨stuck, hstuck, hrefused⟩ := refused_of_statements_error first.next hrest
              exact ⟨stuck, harrives.trans hstuck, hrefused⟩
          | ok rest =>
              simp only [bind, Except.bind, hrest] at h
              cases h
termination_by cursor.tokens.length
decreasing_by exact first.shorter

end Program

end AtomCompiler
