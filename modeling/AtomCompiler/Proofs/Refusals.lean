import AtomCompiler.Proofs.Acceptance
import AtomCompiler.Proofs.Following

/-!
# Where the parser refuses

The parser refuses a list of tokens at the earliest token that no program of the
grammar has there, or at the end of a list that a program goes on from.

The parser follows the machine that knows what is expected next, so it is enough to
look at runs of the machine.  Each step keeps two facts.  What is still expected can
be completed, so what was taken begins a program.  And a step depends on nothing but
the kind of the next token, so a program that began like this would be stuck at the
same place, while programs are read to their end.

* `Part.yields_of_become`, `Part.yields_of_take` — a step leads to what the grammar has
  for a part;
* `Expecting.Takes` — what a run has taken, and the two facts about it;
* `not_beginsProgram_of_refuse` — no program goes on with a token that is refused;
* `compileTokens_refuses_earliest` — an error is at the earliest token that it can be.
-/

namespace AtomCompiler

/-- Results can be compared. -/
instance decidableEqResult {ε α : Type} [DecidableEq ε] [DecidableEq α] : DecidableEq (Except ε α)
  | .ok first, .ok second => decidable_of_iff (first = second) (by rw [Except.ok.injEq])
  | .error first, .error second => decidable_of_iff (first = second) (by rw [Except.error.injEq])
  | .ok _, .error _ => isFalse (by simp)
  | .error _, .ok _ => isFalse (by simp)

/-- The kinds of tokens. -/
def kindsOf (tokens : List (Located Token)) : List TokenKind :=
  tokens.map fun token => token.value.kind

theorem kindsOf_append (first second : List (Located Token)) :
    kindsOf (first ++ second) = kindsOf first ++ kindsOf second :=
  List.map_append

theorem kindsOf_tokensOf (kinds : List TokenKind) : kindsOf (tokensOf kinds) = kinds := by
  simp [kindsOf, tokensOf, Function.comp_def]

/-- The kinds that are left are those of the tokens that are left. -/
theorem Program.Cursor.kinds_eq_kindsOf (cursor : Cursor) :
    cursor.kinds = kindsOf cursor.tokens := by
  simp [kinds, values, kindsOf]

/-- Kinds that some program of the grammar begins with. -/
def BeginsProgram (kinds : List TokenKind) : Prop := ∃ rest, IsProgram (kinds ++ rest)

namespace Program

variable {cursor : Cursor} {part : Part} {parts later : List Part} {kinds : List TokenKind}
  {next : Option TokenKind}

/-! ## What parts can be -/

/-- What parts yield one after another is divided among them. -/
theorem yield_append (h : Yield (parts ++ later) kinds) :
    ∃ first rest, Yield parts first ∧ Yield later rest ∧ kinds = first ++ rest := by
  induction parts generalizing kinds with
  | nil => exact ⟨[], kinds, rfl, h, rfl⟩
  | cons part parts ih =>
      obtain ⟨first, rest, hfirst, hrest, rfl⟩ := h
      obtain ⟨middle, last, hmiddle, hlast, rfl⟩ := ih hrest
      refine ⟨first ++ middle, last, ⟨first, middle, hfirst, hmiddle, rfl⟩, hlast, ?_⟩
      rw [List.append_assoc]

/-- Every part can be something. -/
theorem Part.exists_yields (part : Part) : ∃ kinds, part.Yields kinds := by
  have hfactor : Grammar.Factor [.identifier] := .identifier
  have hcondition := Grammar.Condition.compare hfactor .equal hfactor
  have hassignment := Grammar.Assignment.untyped .increment
  cases part with
  | sign kind => exact ⟨[kind], rfl⟩
  | literal => exact ⟨[.integer], .integer⟩
  | factor => exact ⟨_, hfactor⟩
  | comparator => exact ⟨[.equal], .equal, .equal, rfl⟩
  | condition => exact ⟨_, hcondition⟩
  | afterFactor =>
      refine ⟨[], ?_⟩
      intro left hleft
      rw [List.append_nil]
      exact .factor hleft
  | expression => exact ⟨_, .factor hfactor⟩
  | afterMinus => exact ⟨[.identifier], .negated⟩
  | change => exact ⟨[.increment], .increment⟩
  | assignment => exact ⟨_, hassignment⟩
  | branch => exact ⟨_, .ifThen hcondition .nil⟩
  | afterBranch =>
      refine ⟨[], ?_⟩
      intro condition body hcondition hbody
      rw [List.append_nil]
      exact .ifThen hcondition hbody
  | otherwise =>
      refine ⟨Grammar.braced [], ?_⟩
      intro condition body hcondition hbody
      exact .ifElse hcondition hbody .nil
  | statement => exact ⟨_, .assign hassignment⟩
  | block => exact ⟨_, [], .nil, rfl⟩
  | blockRest => exact ⟨_, [], .nil, rfl⟩
  | program => exact ⟨[], .nil⟩

/-- Whatever is expected, something yields it. -/
theorem exists_yield (parts : List Part) : ∃ kinds, Yield parts kinds := by
  induction parts with
  | nil => exact ⟨[], rfl⟩
  | cons part parts ih =>
      obtain ⟨first, hfirst⟩ := part.exists_yields
      obtain ⟨rest, hrest⟩ := ih
      exact ⟨first ++ rest, first, rest, hfirst, hrest, rfl⟩

@[simp] theorem yield_nil : Yield [] kinds ↔ kinds = [] := Iff.rfl

/-- A sign yields one token of its kind. -/
@[simp] theorem yield_sign {kind : TokenKind} :
    Yield (.sign kind :: later) kinds ↔ ∃ rest, Yield later rest ∧ kinds = kind :: rest := by
  simp [Yield, Part.Yields]

theorem yield_singleton : Yield [part] kinds ↔ part.Yields kinds := by
  simp [Yield]

/-- A condition in parentheses and a block, which two kinds of statements have. -/
theorem yield_guardedBlock
    (h : Yield (.sign .openParen :: .condition :: .sign .closeParen :: .block :: later) kinds) :
    ∃ condition body rest, Grammar.Condition condition ∧ Grammar.Statements body ∧
      Yield later rest ∧
      kinds = Grammar.guarded condition ++ Grammar.braced body ++ rest := by
  rw [yield_sign] at h
  obtain ⟨inner, ⟨condition, closed, hcondition, hclosed, rfl⟩, rfl⟩ := h
  obtain ⟨behind, ⟨_, rest, ⟨body, hbody, rfl⟩, hrest, rfl⟩, rfl⟩ := yield_sign.mp hclosed
  refine ⟨condition, body, rest, hcondition, hbody, hrest, ?_⟩
  simp [Grammar.guarded, Grammar.braced]

/-- What a statement is replaced by, which its first token decides, is a statement. -/
theorem statement_yields_of_become (h : Part.statement.move next = .become parts)
    (hyield : Yield parts kinds) : Grammar.Statement kinds := by
  rw [Part.move] at h
  split at h
  · cases h
    exact .branch (yield_singleton.mp hyield)
  split at h
  · cases h
    obtain ⟨inner, hinner, rfl⟩ := yield_sign.mp hyield
    obtain ⟨condition, body, rest, hcondition, hbody, hrest, rfl⟩ := yield_guardedBlock hinner
    obtain rfl := yield_nil.mp hrest
    rw [List.append_nil]
    exact .whileLoop hcondition hbody
  split at h
  · cases h
    obtain ⟨_, hinner, rfl⟩ := yield_sign.mp hyield
    obtain ⟨_, ⟨init, _, hinit, hfirst, rfl⟩, rfl⟩ := yield_sign.mp hinner
    obtain ⟨_, ⟨condition, _, hcondition, hsecond, rfl⟩, rfl⟩ := yield_sign.mp hfirst
    obtain ⟨_, ⟨step, _, hstep, hclosed, rfl⟩, rfl⟩ := yield_sign.mp hsecond
    obtain ⟨_, hblock, rfl⟩ := yield_sign.mp hclosed
    obtain ⟨body, hbody, rfl⟩ := yield_singleton.mp hblock
    have hloop := Grammar.Statement.forLoop hinit hcondition hstep hbody
    simpa [Grammar.forHead, Grammar.guarded] using hloop
  split at h
  · cases h
    obtain ⟨change, _, hchange, hsign, rfl⟩ := hyield
    obtain ⟨_, hrest, rfl⟩ := yield_sign.mp hsign
    obtain rfl := yield_nil.mp hrest
    exact .assign hchange
  · cases h

/-- What a part is replaced by is something that the part can be. -/
theorem Part.yields_of_become (h : part.move next = .become parts) (hyield : Yield parts kinds) :
    part.Yields kinds := by
  cases part with
  -- these are taken or refused
  | sign kind => grind [Part.move]
  | literal => grind [Part.move]
  | factor => grind [Part.move]
  | comparator => grind [Part.move]
  | afterMinus => grind [Part.move]
  | change => grind [Part.move]
  | condition =>
      cases h
      obtain ⟨left, _, hleft, ⟨_, _, ⟨sign, hsign, rfl⟩, hright, rfl⟩, rfl⟩ := hyield
      exact .compare hleft hsign (yield_singleton.mp hright)
  | afterFactor =>
      obtain rfl : parts = [] := by grind [Part.move]
      obtain rfl := yield_nil.mp hyield
      intro left hleft
      rw [List.append_nil]
      exact .factor hleft
  | expression =>
      obtain rfl : parts = [.factor, .afterFactor] := by grind [Part.move]
      obtain ⟨left, rest, hleft, hrest, rfl⟩ := hyield
      exact yield_singleton.mp hrest left hleft
  | assignment =>
      obtain rfl : parts = [.sign .identifier, .change] := by grind [Part.move]
      obtain ⟨change, hchange, rfl⟩ := yield_sign.mp hyield
      exact .untyped (yield_singleton.mp hchange)
  | branch =>
      cases h
      obtain ⟨inner, hinner, rfl⟩ := yield_sign.mp hyield
      obtain ⟨condition, body, rest, hcondition, hbody, hrest, rfl⟩ := yield_guardedBlock hinner
      exact yield_singleton.mp hrest condition body hcondition hbody
  | afterBranch =>
      intro condition body hcondition hbody
      have hparts : parts = [.sign (.keyword .kwElse), .otherwise] ∨ parts = [] := by
        grind [Part.move]
      obtain rfl | rfl := hparts
      · obtain ⟨other, hother, rfl⟩ := yield_sign.mp hyield
        exact yield_singleton.mp hother condition body hcondition hbody
      · obtain rfl := yield_nil.mp hyield
        rw [List.append_nil]
        exact .ifThen hcondition hbody
  | otherwise =>
      intro condition body hcondition hbody
      have hparts : parts = [.branch] ∨ parts = [.block] := by grind [Part.move]
      obtain rfl | rfl := hparts
      · exact .ifElseIf hcondition hbody (yield_singleton.mp hyield)
      · obtain ⟨other, hother, rfl⟩ := yield_singleton.mp hyield
        exact .ifElse hcondition hbody hother
  | statement => exact statement_yields_of_become h hyield
  | block =>
      cases h
      obtain ⟨inner, hinner, rfl⟩ := yield_sign.mp hyield
      obtain ⟨body, hbody, rfl⟩ := yield_singleton.mp hinner
      exact ⟨body, hbody, rfl⟩
  | blockRest =>
      have hparts : parts = [.sign .closeCurly] ∨ parts = [.statement, .blockRest] := by
        grind [Part.move]
      obtain rfl | rfl := hparts
      · exact ⟨[], .nil, yield_singleton.mp hyield⟩
      · obtain ⟨first, rest, hfirst, hrest, rfl⟩ := hyield
        obtain ⟨others, hothers, rfl⟩ := yield_singleton.mp hrest
        exact ⟨first ++ others, .cons hfirst hothers, by rw [List.append_assoc]⟩
  | program =>
      have hparts : parts = [] ∨ parts = [.statement, .program] := by grind [Part.move]
      obtain rfl | rfl := hparts
      · obtain rfl := yield_nil.mp hyield
        exact .nil
      · obtain ⟨first, rest, hfirst, hrest, rfl⟩ := hyield
        exact .cons hfirst (yield_singleton.mp hrest)

/-- A token that is taken and what is then expected is something that the part can be. -/
theorem Part.yields_of_take {kind : TokenKind} (h : part.move (some kind) = .take parts)
    (hyield : Yield parts kinds) : part.Yields (kind :: kinds) := by
  cases part with
  | sign wanted =>
      have hkind : kind = wanted ∧ parts = [] := by grind [Part.move]
      obtain ⟨rfl, rfl⟩ := hkind
      exact congrArg (kind :: ·) (yield_nil.mp hyield)
  | literal =>
      have hkind : (kind = .integer ∨ kind = .double) ∧ parts = [] := by grind [Part.move]
      obtain ⟨hkind, rfl⟩ := hkind
      obtain rfl := yield_nil.mp hyield
      obtain rfl | rfl := hkind
      · exact .integer
      · exact .double
  | factor =>
      have hkind : kind = .minus ∧ parts = [.literal] ∨
          (kind = .identifier ∨ kind = .integer ∨ kind = .double) ∧ parts = [] := by
        grind [Part.move]
      obtain ⟨rfl, rfl⟩ | ⟨hkind, rfl⟩ := hkind
      · exact .negative (yield_singleton.mp hyield)
      · obtain rfl := yield_nil.mp hyield
        obtain rfl | rfl | rfl := hkind
        · exact .identifier
        · exact .literal .integer
        · exact .literal .double
  | comparator =>
      have hkind : kind.comparison?.isSome ∧ parts = [] := by grind [Part.move]
      obtain ⟨hkind, rfl⟩ := hkind
      obtain rfl := yield_nil.mp hyield
      exact ⟨kind, Grammar.comparator_iff.mpr (Option.isSome_iff_exists.mp hkind), rfl⟩
  | afterFactor =>
      have hkind : kind.arithmetic?.isSome ∧ parts = [.factor] := by grind [Part.move]
      obtain ⟨hkind, rfl⟩ := hkind
      have hsign := Grammar.operator_iff.mpr (Option.isSome_iff_exists.mp hkind)
      intro left hleft
      exact .arithmetic hleft hsign (yield_singleton.mp hyield)
  | expression =>
      have hkind : kind = .minus ∧ parts = [.afterMinus] := by grind [Part.move]
      obtain ⟨rfl, rfl⟩ := hkind
      have hafter : Part.afterMinus.Yields kinds := yield_singleton.mp hyield
      exact hafter
  | afterMinus =>
      have hkind : kind = .identifier ∧ parts = [] ∨
          (kind = .integer ∨ kind = .double) ∧ parts = [.afterFactor] := by grind [Part.move]
      obtain ⟨rfl, rfl⟩ | ⟨hkind, rfl⟩ := hkind
      · obtain rfl := yield_nil.mp hyield
        exact .negated
      · have hafter := yield_singleton.mp hyield
        obtain rfl | rfl := hkind
        · exact hafter [.minus, .integer] (.negative .integer)
        · exact hafter [.minus, .double] (.negative .double)
  | change =>
      have hkind : kind = .assign ∧ parts = [.expression] ∨
          (kind = .increment ∨ kind = .decrement) ∧ parts = [] := by grind [Part.move]
      obtain ⟨rfl, rfl⟩ | ⟨hkind, rfl⟩ := hkind
      · exact .set (yield_singleton.mp hyield)
      · obtain rfl := yield_nil.mp hyield
        obtain rfl | rfl := hkind
        · exact .increment
        · exact .decrement
  | assignment =>
      have hkind : (kind = .keyword .kwInt ∨ kind = .keyword .kwDouble) ∧
          parts = [.sign .identifier, .change] := by grind [Part.move]
      obtain ⟨hkind, rfl⟩ := hkind
      obtain ⟨change, hchange, rfl⟩ := yield_sign.mp hyield
      have hupdate := yield_singleton.mp hchange
      obtain rfl | rfl := hkind
      · exact .int hupdate
      · exact .double hupdate
  -- these are only replaced
  | condition => cases h
  | branch => cases h
  | afterBranch => grind [Part.move]
  | otherwise => grind [Part.move]
  | statement => grind [Part.move]
  | block => cases h
  | blockRest => grind [Part.move]
  | program => grind [Part.move]

/-! ## What a run has taken -/

/-- A run of the machine has taken these tokens.  What is still expected at its end
completes them, and the machine runs in the same way wherever it meets tokens of the
same kinds, up to and with the first one that was not taken. -/
structure Expecting.Takes (start : Expecting) (taken : List (Located Token)) (finish : Expecting) :
    Prop where
  tokens : start.cursor.tokens = taken ++ finish.cursor.tokens
  last : finish.cursor.last = (taken.getLast?.map Located.span).getD start.cursor.last
  completes : ∀ {rest}, Yield finish.parts rest → Yield start.parts (kindsOf taken ++ rest)
  replays : ∀ {cursor : Cursor} {rest}, cursor.kinds = kindsOf taken ++ rest →
    rest.head? = finish.cursor.peek? →
    ∃ behind : Cursor, behind.kinds = rest ∧
      Reaches Expecting.step? ⟨start.parts, cursor⟩ ⟨finish.parts, behind⟩

namespace Expecting.Takes

variable {first middle finish : Expecting} {taken others : List (Located Token)}

theorem refl (state : Expecting) : state.Takes [] state where
  tokens := rfl
  last := rfl
  completes := id
  replays := fun h _ => ⟨_, h, Reaches.refl _ _⟩

/-- The next token after some that were taken is the same one on both ways. -/
theorem head?_eq (h : first.Takes taken finish) {rest : List TokenKind}
    (hrest : rest.head? = finish.cursor.peek?) :
    (kindsOf taken ++ rest).head? = first.cursor.peek? := by
  rw [Cursor.peek?, h.tokens]
  cases taken with
  | nil => exact hrest
  | cons token taken => rfl

/-- Tokens that are taken in two runs are taken in one. -/
theorem trans (h : first.Takes taken middle) (h' : middle.Takes others finish) :
    first.Takes (taken ++ others) finish where
  tokens := by rw [h.tokens, h'.tokens, List.append_assoc]
  last := by
    rw [h'.last, h.last, List.getLast?_append]
    cases others.getLast? <;> simp
  completes := by
    intro rest hrest
    rw [kindsOf_append, List.append_assoc]
    exact h.completes (h'.completes hrest)
  replays := by
    intro cursor rest hcursor hrest
    rw [kindsOf_append, List.append_assoc] at hcursor
    obtain ⟨between, hbetween, hreaches⟩ := h.replays hcursor (h'.head?_eq hrest)
    obtain ⟨behind, hbehind, hreaches'⟩ := h'.replays hbetween hrest
    exact ⟨behind, hbehind, hreaches.trans hreaches'⟩

end Expecting.Takes

/-- A step that replaces a part takes nothing. -/
theorem takes_of_become (h : part.move cursor.peek? = .become parts) :
    Expecting.Takes ⟨part :: later, cursor⟩ [] ⟨parts ++ later, cursor⟩ where
  tokens := rfl
  last := rfl
  completes := by
    intro rest hrest
    obtain ⟨first, behind, hfirst, hbehind, rfl⟩ := yield_append hrest
    exact ⟨first, behind, part.yields_of_become h hfirst, hbehind, rfl⟩
  replays := by
    intro other rest hkinds hrest
    have hpeek : other.peek? = cursor.peek? := by
      rw [other.peek?_eq_head?, hkinds]
      exact hrest
    exact ⟨other, hkinds, (Reaches.refl _ _).head (step?_of_become (by rwa [hpeek]))⟩

/-- A step that takes a token. -/
theorem takes_of_take {last : Span} {token : Located Token} {rest : List (Located Token)}
    (h : part.move (some token.value.kind) = .take parts) :
    Expecting.Takes ⟨part :: later, ⟨last, token :: rest⟩⟩ [token]
      ⟨parts ++ later, ⟨token.span, rest⟩⟩ where
  tokens := rfl
  last := rfl
  completes := by
    intro kinds hkinds
    obtain ⟨first, behind, hfirst, hbehind, rfl⟩ := yield_append hkinds
    exact ⟨token.value.kind :: first, behind, part.yields_of_take h hfirst, hbehind, rfl⟩
  replays := by
    intro other kinds hkinds _
    obtain ⟨otherLast, tokens⟩ := other
    cases tokens with
    | nil => cases hkinds
    | cons found tokens =>
        injection hkinds with hkind hkinds
        rw [← show found.value.kind = token.value.kind from hkind] at h
        exact ⟨⟨found.span, tokens⟩, hkinds, (Reaches.refl _ _).head (step?_of_take h)⟩

/-- What one step of the machine takes. -/
theorem exists_takes_of_step? {state next : Expecting} (h : state.step? = some next) :
    ∃ taken, state.Takes taken next := by
  obtain ⟨parts, last, tokens⟩ := state
  cases parts with
  | nil => cases h
  | cons part later =>
      cases hmove : part.move (Cursor.peek? ⟨last, tokens⟩) with
      | refuse => simp [step?_of_refuse hmove] at h
      | become parts =>
          rw [step?_of_become hmove] at h
          obtain rfl := Option.some.inj h
          exact ⟨[], takes_of_become hmove⟩
      | take parts =>
          cases tokens with
          | nil => simp [Expecting.step?, hmove] at h
          | cons token rest =>
              rw [step?_of_take hmove] at h
              obtain rfl := Option.some.inj h
              exact ⟨[token], takes_of_take hmove⟩

/-- **A run of the machine has taken some tokens.** -/
theorem exists_takes {start finish : Expecting} (h : Reaches Expecting.step? start finish) :
    ∃ taken, start.Takes taken finish := by
  obtain ⟨n, hn⟩ := h
  induction n generalizing start with
  | zero =>
      obtain rfl := Option.some.inj hn
      exact ⟨[], .refl start⟩
  | succ n ih =>
      rw [stepN_succ] at hn
      obtain ⟨next, hstep, hrest⟩ := Option.bind_eq_some_iff.mp hn
      obtain ⟨taken, htaken⟩ := exists_takes_of_step? hstep
      obtain ⟨others, hothers⟩ := ih hrest
      exact ⟨taken ++ others, htaken.trans hothers⟩

/-- What the machine has taken of a program can be completed. -/
theorem beginsProgram_of_takes {taken : List (Located Token)} {finish : Expecting}
    (h : Expecting.Takes ⟨[.program], cursor⟩ taken finish) : BeginsProgram (kindsOf taken) := by
  obtain ⟨rest, hrest⟩ := exists_yield finish.parts
  exact ⟨rest, yield_singleton.mp (h.completes hrest)⟩

/-- Where the machine refuses a token, no program goes on with it: the machine would
have read that program to its end, and it would have been stuck in it. -/
theorem not_beginsProgram_of_refuse {taken after : List (Located Token)} {found : Located Token}
    {last : Span} (h : Expecting.Takes ⟨[.program], cursor⟩ taken
      ⟨part :: later, ⟨last, found :: after⟩⟩)
    (hrefuse : part.move (some found.value.kind) = .refuse) :
    ¬BeginsProgram (kindsOf (taken ++ [found])) := by
  intro hbegins
  obtain ⟨rest, hprogram⟩ := hbegins
  -- tokens of these kinds are read to their end, and the machine is stuck in them
  rw [kindsOf_append, List.append_assoc, ← kindsOf_tokensOf (_ ++ _)] at hprogram
  obtain ⟨program, hparse⟩ := (parse_ok_iff _).mpr hprogram
  obtain ⟨finish, hfinish⟩ := reaches_of_statements_ok _ hparse
  have hkinds : Cursor.kinds ⟨.start, tokensOf (kindsOf taken ++ (kindsOf [found] ++ rest))⟩ =
      kindsOf taken ++ (kindsOf [found] ++ rest) := by
    rw [Cursor.kinds_eq_kindsOf, kindsOf_tokensOf]
  obtain ⟨behind, hbehind, hstuck⟩ := h.replays hkinds rfl
  have hpeek : behind.peek? = some found.value.kind := by
    rw [behind.peek?_eq_head?, hbehind]
    rfl
  have heq := hfinish.eq_of_stopped hstuck rfl (step?_of_refuse (by rwa [hpeek]))
  cases heq

end Program

/-- An error is at the earliest token that can be refused: either at a token that no
program has behind those before it, or at the last token of a list that only begins a
program. -/
structure EarliestError (tokens : List (Located Token)) (error : Located ParseError) : Prop where
  at_found : ∀ {found : Token}, error.value.found? = some found →
    ∃ before after, tokens = before ++ ⟨found, error.span⟩ :: after ∧
      BeginsProgram (kindsOf before) ∧
      ¬BeginsProgram (kindsOf (before ++ [⟨found, error.span⟩]))
  at_end : error.value.found? = none →
    (∃ rest, rest ≠ [] ∧ IsProgram (kindsOf tokens ++ rest)) ∧
      tokens.getLast?.map Located.span = some error.span

/-- **The parser fails at the earliest token that it can.** -/
theorem Program.earliestError_of_parse {tokens : List (Located Token)}
    {error : Located ParseError} (h : parse tokens = .error error) :
    EarliestError tokens error := by
  obtain ⟨stuck, hreaches, ⟨part, later, hparts, hmove⟩, hfound, hspan⟩ :=
    refused_of_statements_error ⟨.start, tokens⟩ h
  obtain ⟨taken, htakes⟩ := exists_takes hreaches
  obtain ⟨parts, last, rest⟩ := stuck
  obtain rfl : parts = part :: later := hparts
  obtain rfl : tokens = taken ++ rest := htakes.tokens
  have hbegins : BeginsProgram (kindsOf taken) := beginsProgram_of_takes htakes
  cases rest with
  | nil =>
      -- all tokens were taken; they are no program, so what completes them is not empty
      rw [List.append_nil] at h ⊢
      have hnot : ¬IsProgram (kindsOf taken) := by
        intro hprogram
        obtain ⟨program, hparse⟩ := (parse_ok_iff taken).mpr hprogram
        cases h.symm.trans hparse
      constructor
      · intro found hsome
        cases hfound.symm.trans hsome
      · intro _
        obtain ⟨completion, hprogram⟩ := hbegins
        refine ⟨⟨completion, ?_, hprogram⟩, ?_⟩
        · intro hnil
          rw [hnil, List.append_nil] at hprogram
          exact hnot hprogram
        · have hne : taken ≠ [] := by
            intro hnil
            subst hnil
            exact hnot .nil
          have hlast : last = (taken.getLast?.map Located.span).getD .start := htakes.last
          rw [List.getLast?_eq_some_getLast hne] at hlast ⊢
          exact congrArg some (hlast.symm.trans hspan.symm)
  | cons bad after =>
      constructor
      · intro found hsome
        obtain rfl : bad.value = found := Option.some.inj (hfound.symm.trans hsome)
        have hbad : (⟨bad.value, error.span⟩ : Located Token) = bad := by
          rw [show error.span = bad.span from hspan]
        rw [hbad]
        exact ⟨taken, after, rfl, hbegins, not_beginsProgram_of_refuse htakes hmove⟩
      · intro hnone
        cases hfound.symm.trans hnone

/-- **Syntax errors are reported at the earliest possible token.**  Tokens that do not
compile have a grammatical error.  If it is about a token, it carries that token and its
place; the tokens before it begin a program, and with it they do not.  If it is not, all
tokens together begin a longer program, and the error is at the last of them. -/
theorem compileTokens_refuses_earliest {tokens : List (Located Token)} {error : SourceError}
    (h : compileTokens tokens = .error error) :
    ∃ located, error = .grammatical located ∧ EarliestError tokens located := by
  unfold compileTokens at h
  split at h
  · cases h
  · next located hparse =>
      injection h with h
      exact ⟨located, h.symm, Program.earliestError_of_parse hparse⟩

/-- A place of one character in the first line. -/
def Span.atColumn (column : Nat) : Span := ⟨⟨1, column⟩, ⟨1, column⟩⟩

/-- A loop with an `else` behind it, one token in each column. -/
def loopElse : List (Located Token) :=
  ([.keyword .kwWhile, .openParen, .identifier, .less, .minus, .integer, .closeParen, .openCurly,
      .identifier, .increment, .semicolon, .closeCurly, .keyword .kwElse] : List TokenKind).mapIdx
    fun index kind => ⟨⟨kind, ""⟩, .atColumn (index + 1)⟩

/-- The loop is fine, its `else` is not; and a loop that is not closed ends too early. -/
theorem compileTokens_refuses_earliest_loopElse :
    ∃ atElse atEnd, atElse.span = .atColumn 13 ∧ atEnd.span = .atColumn 11 ∧
      compileTokens loopElse = .error (.grammatical atElse) ∧ EarliestError loopElse atElse ∧
      compileTokens (loopElse.take 11) = .error (.grammatical atEnd) ∧
      EarliestError (loopElse.take 11) atEnd := by
  have helse : compileTokens loopElse = .error (.grammatical
      ⟨.expectedStatement ⟨.keyword .kwElse, ""⟩, .atColumn 13⟩) := by decide +kernel
  have hend : compileTokens (loopElse.take 11) = .error (.grammatical
      ⟨.unexpectedEnd, .atColumn 11⟩) := by decide +kernel
  obtain ⟨atElse, helseEq, helseEarliest⟩ := compileTokens_refuses_earliest helse
  obtain ⟨atEnd, hendEq, hendEarliest⟩ := compileTokens_refuses_earliest hend
  cases helseEq
  cases hendEq
  exact ⟨_, _, rfl, rfl, helse, helseEarliest, hend, hendEarliest⟩

end AtomCompiler
