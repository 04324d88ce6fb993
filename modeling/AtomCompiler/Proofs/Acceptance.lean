import AtomCompiler.Program.Grammar
import AtomCompiler.Proofs.Parsing

/-!
# What the parser accepts

The parser accepts a list of tokens exactly when their kinds are a program of the
grammar; lexemes play no part.

One direction reads the grammar off the tokens that a program was written with.
The other follows a derivation and shows that every rule of the parser gets through
what the grammar has for it.  Two rules look at the token behind what they read: an
expression must not be followed by an operator, and a branch must not be followed
by `else`.  Nothing that can stand behind them begins like that.

* `Written.Statements.derivable` — what was parsed is derivable;
* `ReadsUpTo` — a rule gets through, and leaves what stands behind;
* `Grammar.Statement.readsUpTo`, `Grammar.Statements.blockRest_readsUpTo` — the rules
  that call each other;
* `compileTokens_accepts_iff` — the parser accepts exactly the programs.
-/

namespace AtomCompiler

/-! ## Signs of operators -/

/-- The kinds that compare are those that the parser takes for a comparison. -/
theorem Grammar.comparator_iff {kind : TokenKind} :
    Comparator kind ↔ ∃ comparison, kind.comparison? = some comparison := by
  constructor
  · intro h
    cases h <;> exact ⟨_, rfl⟩
  · intro h
    obtain ⟨comparison, h⟩ := h
    unfold TokenKind.comparison? at h
    split at h
    · exact .notEqual
    · exact .greaterOrEqual
    · exact .lessOrEqual
    · exact .greater
    · exact .less
    · exact .equal
    · cases h

/-- The kinds of operators are those that the parser takes for an operation. -/
theorem Grammar.operator_iff {kind : TokenKind} :
    Operator kind ↔ ∃ operation, kind.arithmetic? = some operation := by
  constructor
  · intro h
    cases h <;> exact ⟨_, rfl⟩
  · intro h
    obtain ⟨operation, h⟩ := h
    unfold TokenKind.arithmetic? at h
    split at h
    · exact .plus
    · exact .minus
    · exact .times
    · exact .divide
    · cases h

/-! ## What was written is derivable -/

namespace Written

open Grammar (guarded braced forHead)

variable {tokens : List Token}

/-- A sign is one token of its kind. -/
theorem Sign.kinds_eq {kind : TokenKind} (h : Sign kind tokens) :
    tokens.map Token.kind = [kind] := by
  obtain ⟨lexeme, rfl⟩ := h
  rfl

/-- A written literal is one in the grammar. -/
theorem Literal.derivable {text : String} (h : Literal text tokens) :
    Grammar.Literal (tokens.map Token.kind) := by
  cases h with
  | integer => exact .integer
  | double => exact .double

/-- A written factor is one in the grammar, with or without a sign. -/
theorem Factor.derivable {factor : AtomCompiler.Factor} (h : Factor factor tokens) :
    Grammar.Factor (tokens.map Token.kind) := by
  cases h with
  | identifier => exact .identifier
  | literal hliteral => exact .literal hliteral.derivable
  | negative hsign hliteral =>
      rw [List.map_append, hsign.kinds_eq]
      exact .negative hliteral.derivable

/-- A written condition is one in the grammar. -/
theorem Condition.derivable {condition : AtomCompiler.Condition} (h : Condition condition tokens) :
    Grammar.Condition (tokens.map Token.kind) := by
  cases h with
  | compare hleft hkind hsign hright =>
      rw [List.map_append, List.map_append, hsign.kinds_eq]
      exact .compare hleft.derivable (Grammar.comparator_iff.mpr ⟨_, hkind⟩) hright.derivable

/-- A written expression is one in the grammar. -/
theorem Expression.derivable {value : AtomCompiler.Expression} (h : Expression value tokens) :
    Grammar.Expression (tokens.map Token.kind) := by
  cases h with
  | negated name hsign =>
      rw [List.map_append, hsign.kinds_eq]
      exact .negated
  | factor hfactor => exact .factor hfactor.derivable
  | arithmetic hleft hkind hsign hright =>
      rw [List.map_append, List.map_append, hsign.kinds_eq]
      exact .arithmetic hleft.derivable (Grammar.operator_iff.mpr ⟨_, hkind⟩) hright.derivable

/-- A change is derivable behind the variable that it changes. -/
theorem Update.derivable {update : AtomCompiler.Update} (h : Update update tokens) :
    Grammar.Update (.identifier :: tokens.map Token.kind) := by
  cases h with
  | increment hsign =>
      rw [hsign.kinds_eq]
      exact .increment
  | decrement hsign =>
      rw [hsign.kinds_eq]
      exact .decrement
  | set hsign hvalue =>
      rw [List.map_append, hsign.kinds_eq]
      exact .set hvalue.derivable

/-- A written assignment is one in the grammar, with or without a type. -/
theorem Assignment.derivable {assignment : AtomCompiler.Assignment}
    (h : Assignment assignment tokens) : Grammar.Assignment (tokens.map Token.kind) := by
  cases h with
  | untyped name hupdate => exact .untyped hupdate.derivable
  | int name htype hupdate =>
      rw [List.map_append, htype.kinds_eq]
      exact .int hupdate.derivable
  | double name htype hupdate =>
      rw [List.map_append, htype.kinds_eq]
      exact .double hupdate.derivable

/-- A written guard is a condition of the grammar in parentheses. -/
theorem Guard.derivable {condition : AtomCompiler.Condition} (h : Guard condition tokens) :
    ∃ kinds, tokens.map Token.kind = guarded kinds ∧ Grammar.Condition kinds := by
  cases h with
  | parens hopened hcondition hclosed =>
      refine ⟨_, ?_, hcondition.derivable⟩
      rw [List.map_append, List.map_append, hopened.kinds_eq, hclosed.kinds_eq]
      rfl

/-- The written head of a `for` loop has its three parts in the grammar. -/
theorem ForHead.derivable {init step : AtomCompiler.Assignment}
    {condition : AtomCompiler.Condition} (h : ForHead init condition step tokens) :
    ∃ first middle last, tokens.map Token.kind = forHead first middle last ∧
      Grammar.Assignment first ∧ Grammar.Condition middle ∧ Grammar.Assignment last := by
  cases h with
  | parens hopened hinit hfirst hcondition hsecond hstep hclosed =>
      refine ⟨_, _, _, ?_, hinit.derivable, hcondition.derivable, hstep.derivable⟩
      simp [hopened.kinds_eq, hfirst.kinds_eq, hsecond.kinds_eq, hclosed.kinds_eq, forHead, guarded]

mutual

/-- A written statement is one in the grammar; by induction over how it is written. -/
theorem Statement.derivable {statement : AtomCompiler.Statement} {tokens : List Token} :
    Statement statement tokens → Grammar.Statement (tokens.map Token.kind)
  | .branch hbranch => .branch hbranch.derivable
  | .whileLoop hword hguard hbody => by
      obtain ⟨condition, hkinds, hcondition⟩ := hguard.derivable
      obtain ⟨body, hblock, hstatements⟩ := hbody.derivable
      rw [List.map_append, List.map_append, hword.kinds_eq, hkinds, hblock]
      exact .whileLoop hcondition hstatements
  | .forLoop hword hhead hbody => by
      obtain ⟨init, condition, step, hkinds, hinit, hcondition, hstep⟩ := hhead.derivable
      obtain ⟨body, hblock, hstatements⟩ := hbody.derivable
      rw [List.map_append, List.map_append, hword.kinds_eq, hkinds, hblock]
      exact .forLoop hinit hcondition hstep hstatements
  | .assign hassignment hsign => by
      rw [List.map_append, hsign.kinds_eq]
      exact .assign hassignment.derivable

/-- A written branch is one in the grammar.  An `else` that goes on with `if` is a branch again.
-/
theorem Branch.derivable {statement : AtomCompiler.Statement} {tokens : List Token} :
    Branch statement tokens → Grammar.Branch (tokens.map Token.kind)
  | .ifThen hword hguard hbody => by
      obtain ⟨condition, hkinds, hcondition⟩ := hguard.derivable
      obtain ⟨body, hblock, hstatements⟩ := hbody.derivable
      rw [List.map_append, List.map_append, hword.kinds_eq, hkinds, hblock]
      exact .ifThen hcondition hstatements
  | .ifElse hword hguard hbody helse hother => by
      obtain ⟨condition, hkinds, hcondition⟩ := hguard.derivable
      obtain ⟨body, hblock, hstatements⟩ := hbody.derivable
      obtain ⟨other, hotherBlock, hothers⟩ := hother.derivable
      have hbranch := Grammar.Branch.ifElse hcondition hstatements hothers
      simpa [hword.kinds_eq, hkinds, hblock, helse.kinds_eq, hotherBlock] using hbranch
  | .ifElseIf hword hguard hbody helse hother => by
      obtain ⟨condition, hkinds, hcondition⟩ := hguard.derivable
      obtain ⟨body, hblock, hstatements⟩ := hbody.derivable
      have hbranch := Grammar.Branch.ifElseIf hcondition hstatements hother.derivable
      simpa [hword.kinds_eq, hkinds, hblock, helse.kinds_eq] using hbranch

/-- A written block is a list of statements of the grammar in braces. -/
theorem Block.derivable {statement : AtomCompiler.Statement} {tokens : List Token} :
    Block statement tokens →
      ∃ body, tokens.map Token.kind = braced body ∧ Grammar.Statements body
  | .braces hopened hstatements hclosed => by
      refine ⟨_, ?_, hstatements.derivable⟩
      rw [List.map_append, List.map_append, hopened.kinds_eq, hclosed.kinds_eq]
      rfl

/-- **What a program is written with is derivable.** -/
theorem Statements.derivable {statement : AtomCompiler.Statement} {tokens : List Token} :
    Statements statement tokens → Grammar.Statements (tokens.map Token.kind)
  | .nil => .nil
  | .cons hfirst hrest => by
      rw [List.map_append]
      exact .cons hfirst.derivable hrest.derivable

end

end Written

/-! ## How derivations begin -/

namespace Grammar

variable {kinds : List TokenKind}

/-- An update begins with the name that it changes. -/
theorem Update.eq_cons (h : Update kinds) : ∃ change, kinds = .identifier :: change := by
  cases h <;> exact ⟨_, rfl⟩

/-- The first token tells that an assignment follows. -/
theorem Assignment.head?_eq (h : Assignment kinds) :
    kinds.head? = some .identifier ∨ kinds.head? = some (.keyword .kwInt) ∨
      kinds.head? = some (.keyword .kwDouble) := by
  cases h with
  | untyped hupdate =>
      obtain ⟨change, rfl⟩ := hupdate.eq_cons
      exact .inl rfl
  | int => exact .inr (.inl rfl)
  | double => exact .inr (.inr rfl)

/-- The first token of a branch is the word `if`. -/
theorem Branch.head?_eq (h : Branch kinds) : kinds.head? = some (.keyword .kwIf) := by
  cases h <;> rfl

/-- No statement is taken for the end of a block or for the rest of a branch. -/
theorem Statement.head?_eq (h : Statement kinds) :
    ∃ first, kinds.head? = some first ∧ first ≠ .closeCurly ∧ first ≠ .keyword .kwElse := by
  cases h with
  | branch hbranch => exact ⟨_, hbranch.head?_eq, by decide, by decide⟩
  | whileLoop => exact ⟨_, rfl, by decide, by decide⟩
  | forLoop => exact ⟨_, rfl, by decide, by decide⟩
  | assign hassignment =>
      obtain hhead | hhead | hhead := hassignment.head?_eq
      all_goals exact ⟨_, by rw [List.head?_append, hhead]; rfl, by decide, by decide⟩

/-- Behind a statement there is no `else`, whatever statements follow it. -/
theorem Statements.head?_ne_else (h : Statements kinds) (rest : List TokenKind)
    (hrest : rest.head? ≠ some (.keyword .kwElse)) :
    (kinds ++ rest).head? ≠ some (.keyword .kwElse) := by
  cases h with
  | nil => exact hrest
  | cons hfirst _ =>
      obtain ⟨first, hhead, -, hne⟩ := hfirst.head?_eq
      rw [List.head?_append, List.head?_append, hhead]
      simpa using hne

end Grammar

/-! ## Rules that get through -/

namespace Program

/-- The kinds of the tokens still to come. -/
def Cursor.kinds (cursor : Cursor) : List TokenKind :=
  cursor.values.map Token.kind

/-- The parser looks at the kind of the next token. -/
theorem Cursor.peek?_eq_head? (cursor : Cursor) : cursor.peek? = cursor.kinds.head? := by
  simp [peek?, kinds, values, Function.comp_def]

/-- If the next kinds begin in a certain way, the parser sees it. -/
theorem Cursor.peek?_of_head? {cursor : Cursor} {kinds rest : List TokenKind} {kind : TokenKind}
    (h : cursor.kinds = kinds ++ rest) (hhead : kinds.head? = some kind) :
    cursor.peek? = some kind := by
  rw [peek?_eq_head?, h, List.head?_append, hhead]
  rfl

/-- A rule gets through, and tokens of these kinds are still to come. -/
def ReadsUpTo {α : Type} {start : Cursor} (reading : Reading α start) (rest : List TokenKind) :
    Prop :=
  ∃ parsed, reading = .ok parsed ∧ parsed.next.kinds = rest

variable {α β : Type} {cursor start : Cursor} {kinds rest later : List TokenKind}
  {kind : TokenKind}

/-- A result that leaves the rest has read up to it. -/
theorem readsUpTo_ok {parsed : Parsed α start} (h : parsed.next.kinds = rest) :
    ReadsUpTo (.ok parsed) rest :=
  ⟨parsed, rfl, h⟩

/-- One rule after another. -/
theorem ReadsUpTo.bind {reading : Reading α cursor} {next : Parsed α cursor → Reading β start}
    (h : ReadsUpTo reading rest)
    (hnext : ∀ parsed : Parsed α cursor, parsed.next.kinds = rest → ReadsUpTo (next parsed) later) :
    ReadsUpTo (reading >>= next) later := by
  obtain ⟨parsed, rfl, hrest⟩ := h
  exact hnext parsed hrest

/-- A rule that goes on where another one stopped. -/
theorem ReadsUpTo.since {previous : Parsed α cursor} {reading : Reading β previous.next}
    (h : ReadsUpTo reading rest) : ReadsUpTo (previous.since <$> reading) rest := by
  obtain ⟨parsed, rfl, hrest⟩ := h
  exact readsUpTo_ok hrest

/-- A token is taken, whatever it is. -/
theorem take_bind {next : Parsed Token cursor → Reading α start}
    (h : cursor.kinds = kind :: rest)
    (hnext : ∀ token : Parsed Token cursor, token.value.kind = kind → token.next.kinds = rest →
      ReadsUpTo (next token) later) : ReadsUpTo (take cursor >>= next) later := by
  obtain ⟨last, tokens⟩ := cursor
  cases tokens with
  | nil => cases h
  | cons token tokens =>
      injection h with hkind hrest
      exact hnext ⟨token.value, ⟨token.span, tokens⟩, by simp⟩ hkind hrest

/-- The expected token is read. -/
theorem expect_readsUpTo (h : cursor.kinds = kind :: rest) :
    ReadsUpTo (expect kind cursor) rest := by
  have hne : cursor.tokens ≠ [] := by
    intro hnil
    simp [Cursor.kinds, Cursor.values, hnil] at h
  rw [expect, if_neg hne]
  apply take_bind h
  intro token hkind hrest
  rw [if_pos hkind]
  exact readsUpTo_ok hrest

/-- An identifier is read. -/
theorem identifier_readsUpTo (h : cursor.kinds = .identifier :: rest) :
    ReadsUpTo (identifier cursor) rest := by
  apply take_bind h
  intro token hkind hrest
  rw [hkind]
  exact readsUpTo_ok hrest

/-! ### Expressions -/

/-- A factor of the grammar is read, and nothing behind it. -/
theorem factor_readsUpTo (hfactor : Grammar.Factor kinds) (h : cursor.kinds = kinds ++ rest) :
    ReadsUpTo (factor cursor) rest := by
  cases hfactor with
  | identifier =>
      apply take_bind h
      intro token hkind hrest
      rw [hkind]
      exact readsUpTo_ok hrest
  | literal hliteral =>
      cases hliteral
      all_goals
        apply take_bind h
        intro token hkind hrest
        rw [hkind]
        exact readsUpTo_ok hrest
  | negative hliteral =>
      apply take_bind h
      intro sign hminus hunsigned
      rw [hminus]
      cases hliteral
      all_goals
        apply take_bind hunsigned
        intro token hkind hrest
        rw [hkind]
        exact readsUpTo_ok hrest

/-- A condition of the grammar is read, and nothing behind it. -/
theorem condition_readsUpTo (hcondition : Grammar.Condition kinds)
    (h : cursor.kinds = kinds ++ rest) : ReadsUpTo (condition cursor) rest := by
  cases hcondition with
  | compare hleft hsign hright =>
      obtain ⟨comparison, hcomparison⟩ := Grammar.comparator_iff.mp hsign
      rw [List.append_assoc] at h
      apply (factor_readsUpTo hleft h).bind
      intro left hafter
      apply take_bind hafter
      intro token hkind hbehind
      rw [hkind, hcomparison]
      apply (factor_readsUpTo hright hbehind).bind
      intro right hrest
      exact readsUpTo_ok hrest

/-- The first factor of an expression is read in two ways, with a sign in front and
without; either way the parser then looks for an operator. -/
theorem expression_bind (hfactor : Grammar.Factor kinds) (h : cursor.kinds = kinds ++ rest)
    (hafter : ∀ left : Parsed Factor cursor, left.next.kinds = rest →
      ReadsUpTo (afterFactor left) later) : ReadsUpTo (expression cursor) later := by
  have hpeek : cursor.peek? = (kinds ++ rest).head? := by rw [cursor.peek?_eq_head?, h]
  have hread := factor_readsUpTo hfactor h
  cases hfactor with
  | identifier =>
      rw [expression, if_neg (by simp [hpeek])]
      exact hread.bind hafter
  | literal hliteral =>
      have hne : cursor.peek? ≠ some .minus := by
        cases hliteral <;> simp [hpeek]
      rw [expression, if_neg hne]
      exact hread.bind hafter
  | negative hliteral =>
      rw [expression, if_pos (by simp [hpeek])]
      apply take_bind h
      intro sign _ hunsigned
      cases hliteral
      all_goals
        apply take_bind hunsigned
        intro token hkind hrest
        rw [hkind]
        exact hafter _ hrest

/-- An expression is read to its end if no operator stands behind it. -/
theorem expression_readsUpTo (hexpression : Grammar.Expression kinds)
    (hfollow : rest.head?.bind TokenKind.arithmetic? = none) (h : cursor.kinds = kinds ++ rest) :
    ReadsUpTo (expression cursor) rest := by
  cases hexpression with
  | negated =>
      rw [expression, if_pos (by simp [cursor.peek?_eq_head?, h])]
      apply take_bind h
      intro sign _ hname
      apply take_bind hname
      intro name hkind hrest
      rw [hkind]
      exact readsUpTo_ok hrest
  | factor hfactor =>
      apply expression_bind hfactor h
      intro left hrest
      rw [afterFactor, left.next.peek?_eq_head?, hrest, hfollow]
      exact readsUpTo_ok hrest
  | arithmetic hleft hsign hright =>
      obtain ⟨operation, hoperation⟩ := Grammar.operator_iff.mp hsign
      rw [List.append_assoc] at h
      apply expression_bind hleft h
      intro left hbehind
      rw [afterFactor, left.next.peek?_eq_head?, hbehind]
      simp only [List.cons_append, List.head?_cons, Option.bind_some, hoperation]
      apply take_bind hbehind
      intro token _ hsecond
      apply (factor_readsUpTo hright hsecond).bind
      intro right hrest
      exact readsUpTo_ok hrest

/-! ### Assignments -/

/-- An update of the grammar is read.  No operator may follow, since the parser would go on with
it. -/
theorem update_readsUpTo (hupdate : Grammar.Update (.identifier :: kinds))
    (hfollow : rest.head?.bind TokenKind.arithmetic? = none) (h : cursor.kinds = kinds ++ rest) :
    ReadsUpTo (update cursor) rest := by
  cases hupdate with
  | increment =>
      apply take_bind h
      intro token hkind hrest
      rw [hkind]
      exact readsUpTo_ok hrest
  | decrement =>
      apply take_bind h
      intro token hkind hrest
      rw [hkind]
      exact readsUpTo_ok hrest
  | set hvalue =>
      apply take_bind h
      intro token hkind hbehind
      rw [hkind]
      apply (expression_readsUpTo hvalue hfollow hbehind).bind
      intro value hrest
      exact readsUpTo_ok hrest

/-- An assignment without a type is read, under the same condition on what follows. -/
theorem untypedAssignment_readsUpTo (hupdate : Grammar.Update kinds)
    (hfollow : rest.head?.bind TokenKind.arithmetic? = none) (h : cursor.kinds = kinds ++ rest) :
    ReadsUpTo (untypedAssignment cursor) rest := by
  obtain ⟨change, rfl⟩ := hupdate.eq_cons
  apply (identifier_readsUpTo h).bind
  intro target hbehind
  apply (update_readsUpTo hupdate hfollow hbehind).bind
  intro parsed hrest
  exact readsUpTo_ok hrest

/-- A type in front of an assignment is taken, and means nothing. -/
theorem assignment_readsUpTo_of_type
    (htype : kind = .keyword .kwInt ∨ kind = .keyword .kwDouble) (hupdate : Grammar.Update kinds)
    (hfollow : rest.head?.bind TokenKind.arithmetic? = none)
    (h : cursor.kinds = kind :: (kinds ++ rest)) : ReadsUpTo (assignment cursor) rest := by
  have hpeek : cursor.peek? = some kind := by
    rw [cursor.peek?_eq_head?, h]
    rfl
  rw [assignment, if_pos (by simpa [hpeek] using htype)]
  apply take_bind h
  intro type _ hbehind
  apply (untypedAssignment_readsUpTo hupdate hfollow hbehind).bind
  intro body hrest
  exact readsUpTo_ok hrest

/-- An assignment of the grammar is read, under the same condition on what follows. -/
theorem assignment_readsUpTo (hassignment : Grammar.Assignment kinds)
    (hfollow : rest.head?.bind TokenKind.arithmetic? = none) (h : cursor.kinds = kinds ++ rest) :
    ReadsUpTo (assignment cursor) rest := by
  cases hassignment with
  | untyped hupdate =>
      have hread := untypedAssignment_readsUpTo hupdate hfollow h
      obtain ⟨change, rfl⟩ := hupdate.eq_cons
      rw [assignment, if_neg (by simp [cursor.peek?_eq_head?, h])]
      exact hread
  | int hupdate => exact assignment_readsUpTo_of_type (.inl rfl) hupdate hfollow h
  | double hupdate => exact assignment_readsUpTo_of_type (.inr rfl) hupdate hfollow h

/-- An assignment with its semicolon is read; the semicolon is no operator. -/
theorem simple_readsUpTo (hassignment : Grammar.Assignment kinds)
    (h : cursor.kinds = kinds ++ .semicolon :: rest) : ReadsUpTo (simple cursor) rest := by
  apply (assignment_readsUpTo hassignment rfl h).bind
  intro change hbehind
  apply (expect_readsUpTo hbehind).since.bind
  intro closed hrest
  exact readsUpTo_ok hrest

/-! ### Statements and blocks -/

/-- A condition in parentheses, read in three steps behind a word. -/
theorem guard_bind {word : Parsed Unit cursor}
    {next : Parsed Condition cursor → Parsed Unit cursor → Reading α cursor}
    (hcondition : Grammar.Condition kinds) (h : word.next.kinds = Grammar.guarded kinds ++ rest)
    (hnext : ∀ test closed, closed.next.kinds = rest → ReadsUpTo (next test closed) later) :
    ReadsUpTo (do
        let opened ← word.since <$> expect .openParen word.next
        let test ← opened.since <$> condition opened.next
        let closed ← test.since <$> expect .closeParen test.next
        next test closed)
      later := by
  rw [Grammar.guarded, List.append_assoc] at h
  apply (expect_readsUpTo h).since.bind
  intro opened hopened
  apply (condition_readsUpTo hcondition hopened).since.bind
  intro test htest
  apply (expect_readsUpTo htest).since.bind
  exact hnext test

/-- The head of a `for` loop, read in seven steps behind a word. -/
theorem forHead_bind {word : Parsed Unit cursor} {init condition step : List TokenKind}
    {next : Parsed Assignment cursor → Parsed Condition cursor → Parsed Assignment cursor →
      Parsed Unit cursor → Reading α cursor}
    (hinit : Grammar.Assignment init) (hcondition : Grammar.Condition condition)
    (hstep : Grammar.Assignment step)
    (h : word.next.kinds = Grammar.forHead init condition step ++ rest)
    (hnext : ∀ init test step closed, closed.next.kinds = rest →
      ReadsUpTo (next init test step closed) later) :
    ReadsUpTo (do
        let opened ← word.since <$> expect .openParen word.next
        let init ← opened.since <$> assignment opened.next
        let first ← init.since <$> expect .semicolon init.next
        let test ← first.since <$> Program.condition first.next
        let second ← test.since <$> expect .semicolon test.next
        let step ← second.since <$> assignment second.next
        let closed ← step.since <$> expect .closeParen step.next
        next init test step closed)
      later := by
  simp only [Grammar.forHead, Grammar.guarded, List.cons_append, List.append_assoc,
    List.nil_append] at h
  apply (expect_readsUpTo h).since.bind
  intro opened hopened
  apply (assignment_readsUpTo hinit rfl hopened).since.bind
  intro first hfirst
  apply (expect_readsUpTo hfirst).since.bind
  intro semicolon hsemicolon
  apply (condition_readsUpTo hcondition hsemicolon).since.bind
  intro test htest
  apply (expect_readsUpTo htest).since.bind
  intro second hsecond
  apply (assignment_readsUpTo hstep rfl hsecond).since.bind
  intro last hlast
  apply (expect_readsUpTo hlast).since.bind
  exact hnext first test last

/-- A block is read if its statements are. -/
theorem block_readsUpTo
    (hbody : ∀ {cursor : Cursor}, cursor.kinds = kinds ++ .closeCurly :: rest →
      ReadsUpTo (blockRest cursor) rest)
    (h : cursor.kinds = Grammar.braced kinds ++ rest) : ReadsUpTo (block cursor) rest := by
  rw [Grammar.braced, List.append_assoc] at h
  rw [block]
  apply (expect_readsUpTo h).bind
  intro opened hopened
  exact (hbody hopened).since

/-- A branch is read to its end if what stands behind its first block is: either there
is no `else`, or the other branch is read. -/
theorem branch_bind {condition body : List TokenKind} (hcondition : Grammar.Condition condition)
    (hbody : ∀ {cursor : Cursor}, cursor.kinds = body ++ .closeCurly :: later →
      ReadsUpTo (blockRest cursor) later)
    (h : cursor.kinds =
      .keyword .kwIf :: Grammar.guarded condition ++ Grammar.braced body ++ later)
    (hend : later.head? ≠ some (.keyword .kwElse) → later = rest)
    (hother : ∀ {cursor : Cursor}, later = .keyword .kwElse :: cursor.kinds →
      ReadsUpTo (if cursor.peek? = some (.keyword .kwIf) then statement cursor else block cursor)
        rest) :
    ReadsUpTo (statement cursor) rest := by
  rw [List.append_assoc] at h
  rw [statement, Cursor.peek?_of_head? h rfl]
  apply (expect_readsUpTo h).bind
  intro word hword
  apply guard_bind hcondition hword
  intro test closed hclosed
  apply (block_readsUpTo hbody hclosed).since.bind
  intro first hlater
  -- the parser decides by the next token whether there is another branch
  by_cases helse : later.head? = some (.keyword .kwElse)
  · rw [if_pos (by rw [first.next.peek?_eq_head?, hlater, helse])]
    obtain ⟨other, rfl⟩ := List.head?_eq_some_iff.mp helse
    apply (expect_readsUpTo hlater).since.bind
    intro otherwise hotherwise
    apply (hother (by rw [hotherwise])).since.bind
    intro parsed hrest
    exact readsUpTo_ok hrest
  · rw [if_neg (by rwa [first.next.peek?_eq_head?, hlater])]
    exact readsUpTo_ok (hlater.trans (hend helse))

mutual

/-- A statement of the grammar is read, and nothing behind it.  No `else` may follow, since it
would belong to the last branch. -/
theorem statement_readsUpTo {kinds : List TokenKind} :
    Grammar.Statement kinds → ∀ {cursor : Cursor} {rest : List TokenKind},
      rest.head? ≠ some (.keyword .kwElse) → cursor.kinds = kinds ++ rest →
      ReadsUpTo (statement cursor) rest
  | .branch hbranch, _, _, hfollow, h => branch_readsUpTo hbranch hfollow h
  | .whileLoop hcondition hbody, cursor, rest, _, h => by
      rw [List.append_assoc] at h
      rw [statement, Cursor.peek?_of_head? h rfl]
      apply (expect_readsUpTo h).bind
      intro word hword
      apply guard_bind hcondition hword
      intro test closed hclosed
      apply (block_readsUpTo (blockRest_readsUpTo hbody) hclosed).since.bind
      intro body hrest
      exact readsUpTo_ok hrest
  | .forLoop hinit hcondition hstep hbody, cursor, rest, _, h => by
      rw [List.append_assoc] at h
      rw [statement, Cursor.peek?_of_head? h rfl]
      apply (expect_readsUpTo h).bind
      intro word hword
      apply forHead_bind hinit hcondition hstep hword
      intro init test step closed hclosed
      apply (block_readsUpTo (blockRest_readsUpTo hbody) hclosed).since.bind
      intro body hrest
      exact readsUpTo_ok hrest
  | .assign hassignment, cursor, rest, _, h => by
      rw [List.append_assoc] at h
      have hread : ReadsUpTo (simple cursor) rest := simple_readsUpTo hassignment h
      obtain hhead | hhead | hhead := hassignment.head?_eq
      all_goals
        rw [statement, Cursor.peek?_of_head? h hhead]
        exact hread

/-- A branch of the grammar is read, under the same condition on what follows. -/
theorem branch_readsUpTo {kinds : List TokenKind} :
    Grammar.Branch kinds → ∀ {cursor : Cursor} {rest : List TokenKind},
      rest.head? ≠ some (.keyword .kwElse) → cursor.kinds = kinds ++ rest →
      ReadsUpTo (statement cursor) rest
  | .ifThen hcondition hbody, cursor, rest, hfollow, h => by
      apply branch_bind hcondition (blockRest_readsUpTo hbody) h (fun _ => rfl)
      intro start hother
      exact absurd (hother ▸ rfl) hfollow
  | .ifElse hcondition hbody hother, cursor, rest, hfollow, h => by
      rw [List.append_assoc] at h
      apply branch_bind hcondition (blockRest_readsUpTo hbody) h (fun hne => absurd rfl hne)
      intro start hstart
      injection hstart with _ hstart
      rw [if_neg (by rw [start.peek?_eq_head?, ← hstart]; simp [Grammar.braced])]
      exact block_readsUpTo (blockRest_readsUpTo hother) hstart.symm
  | .ifElseIf hcondition hbody hother, cursor, rest, hfollow, h => by
      rw [List.append_assoc] at h
      apply branch_bind hcondition (blockRest_readsUpTo hbody) h (fun hne => absurd rfl hne)
      intro start hstart
      injection hstart with _ hstart
      rw [if_pos (Cursor.peek?_of_head? hstart.symm hother.head?_eq)]
      exact branch_readsUpTo hother hfollow hstart.symm

/-- The statements of a block are read up to the brace that closes it. -/
theorem blockRest_readsUpTo {kinds : List TokenKind} :
    Grammar.Statements kinds → ∀ {cursor : Cursor} {rest : List TokenKind},
      cursor.kinds = kinds ++ .closeCurly :: rest → ReadsUpTo (blockRest cursor) rest
  | .nil, cursor, rest, h => by
      rw [blockRest, if_pos (by rw [cursor.peek?_eq_head?, h]; rfl)]
      apply (expect_readsUpTo h).bind
      intro closed hrest
      exact readsUpTo_ok hrest
  | .cons hfirst hothers, cursor, rest, h => by
      rw [List.append_assoc] at h
      obtain ⟨first, hhead, hne, -⟩ := hfirst.head?_eq
      rw [blockRest, if_neg (by simpa [Cursor.peek?_of_head? h hhead] using hne)]
      have hfollow := hothers.head?_ne_else (.closeCurly :: rest) (by simp)
      apply (statement_readsUpTo hfirst hfollow h).bind
      intro parsed hbehind
      apply (blockRest_readsUpTo hothers hbehind).since.bind
      intro later hrest
      exact readsUpTo_ok hrest

end

/-- Every program is read to the end of its tokens. -/
theorem statements_ok {kinds : List TokenKind} (hstatements : Grammar.Statements kinds)
    {cursor : Cursor} (h : cursor.kinds = kinds) :
    ∃ program, statements cursor = .ok program := by
  cases hstatements with
  | nil =>
      have hnil : cursor.tokens = [] := by simpa [Cursor.kinds, Cursor.values] using h
      rw [statements, if_pos hnil]
      exact ⟨.skip, rfl⟩
  | cons hfirst hothers =>
      have hne : cursor.tokens ≠ [] := by
        intro hnil
        obtain ⟨first, hhead, -⟩ := hfirst.head?_eq
        simpa [Cursor.peek?, hnil] using Cursor.peek?_of_head? h hhead
      have hfollow := hothers.head?_ne_else [] (by simp)
      rw [List.append_nil] at hfollow
      obtain ⟨first, hread, hbehind⟩ := statement_readsUpTo hfirst hfollow h
      obtain ⟨others, hrest⟩ := statements_ok hothers hbehind
      rw [statements, if_neg hne, hread]
      exact ⟨.seq first.value others, by simp only [bind, Except.bind, hrest]; rfl⟩
termination_by cursor.tokens.length
decreasing_by exact first.shorter

/-- **The parser reads exactly the programs of the grammar.** -/
theorem parse_ok_iff (tokens : List (Located Token)) :
    (∃ program, parse tokens = .ok program) ↔
      IsProgram (tokens.map fun token => token.value.kind) := by
  have hkinds : (⟨.start, tokens⟩ : Cursor).kinds = tokens.map fun token => token.value.kind := by
    simp [Cursor.kinds, Cursor.values]
  constructor
  · intro h
    obtain ⟨program, hparse⟩ := h
    rw [← hkinds]
    exact (parse_isWritten hparse).derivable
  · intro h
    exact statements_ok h hkinds

end Program

/-- Tokens of the given kinds. -/
def tokensOf (kinds : List TokenKind) : List (Located Token) :=
  kinds.map fun kind => ⟨⟨kind, ""⟩, .start⟩

/-- A program is recognised by its kinds alone, whatever its lexemes are. -/
theorem isSome_parse_tokensOf_iff {kinds : List TokenKind} :
    (Program.parse (tokensOf kinds)).toOption.isSome ↔ IsProgram kinds := by
  have hkinds : (tokensOf kinds).map (fun token => token.value.kind) = kinds := by
    simp [tokensOf, Function.comp_def]
  have hiff := Program.parse_ok_iff (tokensOf kinds)
  rw [hkinds] at hiff
  rw [← hiff]
  cases Program.parse (tokensOf kinds) with
  | ok program => simp [Except.toOption]
  | error error => simp [Except.toOption]

/-- Whether kinds are a program is decided by parsing. -/
instance (kinds : List TokenKind) : Decidable (IsProgram kinds) :=
  decidable_of_iff _ isSome_parse_tokensOf_iff

/-- A minus sign may stand between two factors and before a number, and before a name if
that is all. -/
example :
    IsProgram [.identifier, .assign, .minus, .integer, .minus, .minus, .double, .semicolon] ∧
      IsProgram [.identifier, .assign, .minus, .identifier, .semicolon] ∧
      ¬IsProgram [.identifier, .assign, .minus, .identifier, .minus, .integer, .semicolon] := by
  decide +kernel

/-- **The parser accepts exactly its grammar.**  Tokens compile if and only if their
kinds are derivable as a program, whatever their lexemes and places. -/
theorem compileTokens_accepts_iff (tokens : List (Located Token)) :
    (∃ atoms, compileTokens tokens = .ok atoms) ↔
      IsProgram (tokens.map fun token => token.value.kind) := by
  rw [← Program.parse_ok_iff]
  constructor
  · intro h
    obtain ⟨atoms, hatoms⟩ := h
    obtain ⟨program, hprogram, -⟩ := parse_of_compileTokens hatoms
    exact ⟨program, hprogram⟩
  · intro h
    obtain ⟨program, hprogram⟩ := h
    exact ⟨program.atoms, by rw [compileTokens, hprogram]⟩

end AtomCompiler
