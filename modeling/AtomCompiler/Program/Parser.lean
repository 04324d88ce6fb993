import AtomCompiler.Program.Statement
import AtomCompiler.Source
import AtomCompiler.Token.Basic

/-!
# Reading programs

Recursive descent over a list of tokens, looking one token ahead.  Every rule
that succeeds takes at least one token; a result carries that fact, and it is
why parsing ends.

An error is located at the last token taken, or at the start of the text if none
was.  A token that does not fit has been taken by then, so it is the one the
error points at.
-/

namespace AtomCompiler

/-- What can be wrong with a program's tokens. -/
inductive ParseError where
  | unexpectedToken (expected : TokenKind) (found : Token)
  | missingToken (expected : TokenKind)
  | expectedStatement (found : Token)
  | expectedFactor (found : Token)
  | expectedComparison (found : Token)
  | expectedAssignment (found : Token)
  | unexpectedEnd
  deriving DecidableEq, Repr

/-- The wording of a parse error. -/
def ParseError.message : ParseError → String
  | unexpectedToken expected found =>
    s!"Expected {expected.describe}, found {found.describe} instead"
  | missingToken expected => s!"Expected {expected.describe}, none was found instead"
  | expectedStatement found =>
    s!"Expected any of `if`, `while`, `for` or an assignment, found {found.describe}"
  | expectedFactor found => s!"Expected an identifier or a numeric literal, found {found.describe}"
  | expectedComparison found => s!"Expected a comparison operator, found {found.describe}"
  | expectedAssignment found => s!"Expected `=`, `++` or `--`, found {found.describe}"
  | unexpectedEnd => "Abrupt end of program"

/-- The arithmetic operation that a token stands for. -/
def TokenKind.arithmetic? : TokenKind → Option Arithmetic
  | plus => some .add
  | minus => some .subtract
  | times => some .multiply
  | divide => some .divide
  | _ => none

/-- The comparison that a token stands for. -/
def TokenKind.comparison? : TokenKind → Option Comparison
  | notEqual => some .notEqual
  | greaterOrEqual => some .greaterOrEqual
  | lessOrEqual => some .lessOrEqual
  | greater => some .greater
  | less => some .less
  | equal => some .equal
  | _ => none

namespace Program

/-- How far parsing has come: the place of the last token taken, and the tokens
still to come. -/
structure Cursor where
  last : Span
  tokens : List (Located Token)

/-- The kind of the next token. -/
def Cursor.peek? (cursor : Cursor) : Option TokenKind :=
  cursor.tokens.head?.map fun token => token.value.kind

/-- What a rule has read from `start`, and the cursor after it: at least one
token further. -/
structure Parsed (α : Type) (start : Cursor) where
  value : α
  next : Cursor
  shorter : next.tokens.length < start.tokens.length

namespace Parsed

variable {α β : Type} {start : Cursor}

/-- The same reading, with another value. -/
def as (parsed : Parsed α start) (value : β) : Parsed β start :=
  { parsed with value }

/-- A reading that continues another one, seen from where the first began. -/
def since (previous : Parsed α start) (parsed : Parsed β previous.next) : Parsed β start :=
  { parsed with shorter := Nat.lt_trans parsed.shorter previous.shorter }

end Parsed

/-- The result of a rule that begins at `start`. -/
abbrev Reading (α : Type) (start : Cursor) := Except (Located ParseError) (Parsed α start)

/-- An error at the last token taken. -/
def fail {α : Type} (cursor : Cursor) (error : ParseError) : Except (Located ParseError) α :=
  .error ⟨error, cursor.last⟩

/-- Takes the next token, whatever it is. -/
def take (cursor : Cursor) : Reading Token cursor :=
  match h : cursor.tokens with
  | [] => fail cursor .unexpectedEnd
  | token :: rest => .ok ⟨token.value, ⟨token.span, rest⟩, by simp [h]⟩

/-- Takes a token that must have the given kind. -/
def expect (kind : TokenKind) (cursor : Cursor) : Reading Unit cursor :=
  if cursor.tokens = [] then fail cursor (.missingToken kind)
  else do
    let token ← take cursor
    if token.value.kind = kind then return token.as ()
    else fail token.next (.unexpectedToken kind token.value)

/-- The name of a variable. -/
def identifier (cursor : Cursor) : Reading String cursor := do
  let token ← take cursor
  match token.value.kind with
  | .identifier => return token.as token.value.lexeme
  | _ => fail token.next (.unexpectedToken .identifier token.value)

/-- A variable, or a literal with or without a minus sign. -/
def factor (cursor : Cursor) : Reading Factor cursor := do
  let token ← take cursor
  match token.value.kind with
  | .identifier => return token.as (.identifier token.value.lexeme)
  | .integer => return token.as (.literal token.value.lexeme)
  | .double => return token.as (.literal token.value.lexeme)
  | .minus =>
    let literal ← take token.next
    match literal.value.kind with
    | .integer => return token.since (literal.as (.negativeLiteral literal.value.lexeme))
    | .double => return token.since (literal.as (.negativeLiteral literal.value.lexeme))
    | _ => fail literal.next (.expectedFactor literal.value)
  | _ => fail token.next (.expectedFactor token.value)

/-- Two factors with a comparison between them. -/
def condition (cursor : Cursor) : Reading Condition cursor := do
  let left ← factor cursor
  let token ← take left.next
  match token.value.kind.comparison? with
  | none => fail token.next (.expectedComparison token.value)
  | some comparison =>
    let right ← factor token.next
    return left.since (token.since (right.as ⟨left.value, comparison, right.value⟩))

/-- What may follow the first factor of an expression: an operation and a second
factor, or nothing. -/
def afterFactor {start : Cursor} (left : Parsed Factor start) : Reading Expression start :=
  match left.next.peek?.bind TokenKind.arithmetic? with
  | none => return left.as (.factor left.value)
  | some operation => do
    let token ← take left.next
    let right ← factor token.next
    return left.since (token.since (right.as (.arithmetic operation left.value right.value)))

/-- The right side of an assignment.  A minus sign may stand before a variable
only if nothing follows it. -/
def expression (cursor : Cursor) : Reading Expression cursor :=
  if cursor.peek? = some .minus then do
    let sign ← take cursor
    let token ← take sign.next
    match token.value.kind with
    | .identifier => return sign.since (token.as (.negated token.value.lexeme))
    | .integer => afterFactor (sign.since (token.as (.negativeLiteral token.value.lexeme)))
    | .double => afterFactor (sign.since (token.as (.negativeLiteral token.value.lexeme)))
    | _ => fail token.next (.expectedFactor token.value)
  else do
    let left ← factor cursor
    afterFactor left

/-- What follows the variable of an assignment. -/
def update (cursor : Cursor) : Reading Update cursor := do
  let token ← take cursor
  match token.value.kind with
  | .increment => return token.as .increment
  | .decrement => return token.as .decrement
  | .assign =>
    let value ← expression token.next
    return token.since (value.as (.set value.value))
  | _ => fail token.next (.expectedAssignment token.value)

/-- A variable and its change. -/
def untypedAssignment (cursor : Cursor) : Reading Assignment cursor := do
  let target ← identifier cursor
  let change ← update target.next
  return target.since (change.as ⟨target.value, change.value⟩)

/-- An assignment, with or without a type in front. -/
def assignment (cursor : Cursor) : Reading Assignment cursor :=
  if cursor.peek? = some (.keyword .kwInt) ∨ cursor.peek? = some (.keyword .kwDouble) then do
    let type ← take cursor
    let body ← untypedAssignment type.next
    return type.since body
  else untypedAssignment cursor

/-- An assignment that is a statement of its own. -/
def simple (cursor : Cursor) : Reading Statement cursor := do
  let change ← assignment cursor
  let closed ← change.since <$> expect .semicolon change.next
  return closed.as (.assign change.value)

mutual

/-- A statement. -/
def statement (cursor : Cursor) : Reading Statement cursor :=
  match cursor.peek? with
  | some (.keyword .kwIf) => do
    let word ← expect (.keyword .kwIf) cursor
    let opened ← word.since <$> expect .openParen word.next
    let test ← opened.since <$> condition opened.next
    let closed ← test.since <$> expect .closeParen test.next
    let body ← closed.since <$> block closed.next
    if body.next.peek? = some (.keyword .kwElse) then
      let word ← body.since <$> expect (.keyword .kwElse) body.next
      let other ← word.since <$>
        if word.next.peek? = some (.keyword .kwIf) then statement word.next else block word.next
      return other.as (.ifElse test.value body.value other.value)
    else return body.as (.ifThen test.value body.value)
  | some (.keyword .kwWhile) => do
    let word ← expect (.keyword .kwWhile) cursor
    let opened ← word.since <$> expect .openParen word.next
    let test ← opened.since <$> condition opened.next
    let closed ← test.since <$> expect .closeParen test.next
    let body ← closed.since <$> block closed.next
    return body.as (.whileLoop test.value body.value)
  | some (.keyword .kwFor) => do
    let word ← expect (.keyword .kwFor) cursor
    let opened ← word.since <$> expect .openParen word.next
    let init ← opened.since <$> assignment opened.next
    let first ← init.since <$> expect .semicolon init.next
    let test ← first.since <$> condition first.next
    let second ← test.since <$> expect .semicolon test.next
    let step ← second.since <$> assignment second.next
    let closed ← step.since <$> expect .closeParen step.next
    let body ← closed.since <$> block closed.next
    return body.as (.forLoop init.value test.value step.value body.value)
  | some .identifier => simple cursor
  | some (.keyword .kwInt) => simple cursor
  | some (.keyword .kwDouble) => simple cursor
  | _ => do
    let token ← take cursor
    fail token.next (.expectedStatement token.value)
termination_by 2 * cursor.tokens.length
decreasing_by
  · have := closed.shorter
    omega
  · have := word.shorter
    omega
  · have := word.shorter
    omega
  · have := closed.shorter
    omega
  · have := closed.shorter
    omega

/-- Statements between curly braces. -/
def block (cursor : Cursor) : Reading Statement cursor := do
  let opened ← expect .openCurly cursor
  opened.since <$> blockRest opened.next
termination_by 2 * cursor.tokens.length
decreasing_by
  have := opened.shorter
  omega

/-- The rest of a block: statements up to and with the closing brace. -/
def blockRest (cursor : Cursor) : Reading Statement cursor :=
  if cursor.peek? = some .closeCurly then do
    let closed ← expect .closeCurly cursor
    return closed.as .skip
  else do
    let first ← statement cursor
    let rest ← first.since <$> blockRest first.next
    return rest.as (.seq first.value rest.value)
termination_by 2 * cursor.tokens.length + 1
decreasing_by
  · omega
  · have := first.shorter
    omega

end

/-- Statements up to the end of the tokens. -/
def statements (cursor : Cursor) : Except (Located ParseError) Statement :=
  if cursor.tokens = [] then return .skip
  else do
    let first ← statement cursor
    let rest ← statements first.next
    return .seq first.value rest
termination_by cursor.tokens.length
decreasing_by exact first.shorter

/-- Reads a whole program. -/
def parse (tokens : List (Located Token)) : Except (Located ParseError) Statement :=
  statements ⟨.start, tokens⟩

end Program

end AtomCompiler
