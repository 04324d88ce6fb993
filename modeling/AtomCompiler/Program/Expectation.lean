import AtomCompiler.Program.Grammar
import AtomCompiler.Program.Parser

/-!
# What is expected next

A program can be read from left to right with a list of the parts that are still
expected.  The first part and the kind of the next token decide what is done: the
token is taken, or the part is replaced by the parts that it consists of, or the
token does not fit.

This is the grammar as a machine: it remembers nothing of what it has read, and
builds nothing.
-/

namespace AtomCompiler

namespace Program

/-- A part of a program that is expected. -/
inductive Part where
  | sign (kind : TokenKind)
  | literal
  | factor
  | comparator
  | condition
  /-- an operator and a second factor, or nothing -/
  | afterFactor
  | expression
  /-- the rest of an expression that begins with a minus sign -/
  | afterMinus
  /-- what follows the variable of an assignment -/
  | change
  | assignment
  | branch
  /-- `else` and what follows it, or nothing -/
  | afterBranch
  /-- what follows `else` -/
  | otherwise
  | statement
  | block
  | blockRest
  | program
  deriving DecidableEq, Repr

/-- What is done about the first part that is expected. -/
inductive Move where
  /-- The next token is taken, and these parts are expected behind it. -/
  | take (parts : List Part)
  /-- These parts are expected instead. -/
  | become (parts : List Part)
  /-- The next token does not fit, or there is none. -/
  | refuse
  deriving DecidableEq, Repr

/-- What is done about a part, by the kind of the next token. -/
def Part.move (next : Option TokenKind) : Part → Move
  | sign kind => if next = some kind then .take [] else .refuse
  | literal => if next = some .integer ∨ next = some .double then .take [] else .refuse
  | factor =>
    if next = some .minus then .take [literal]
    else if next = some .identifier ∨ next = some .integer ∨ next = some .double then .take []
    else .refuse
  | comparator => if (next.bind TokenKind.comparison?).isSome then .take [] else .refuse
  | condition => .become [factor, comparator, factor]
  | afterFactor => if (next.bind TokenKind.arithmetic?).isSome then .take [factor] else .become []
  | expression => if next = some .minus then .take [afterMinus] else .become [factor, afterFactor]
  | afterMinus =>
    if next = some .identifier then .take []
    else if next = some .integer ∨ next = some .double then .take [afterFactor]
    else .refuse
  | change =>
    if next = some .assign then .take [expression]
    else if next = some .increment ∨ next = some .decrement then .take []
    else .refuse
  | assignment =>
    if next = some (.keyword .kwInt) ∨ next = some (.keyword .kwDouble) then
      .take [sign .identifier, change]
    else .become [sign .identifier, change]
  | branch =>
    .become [sign (.keyword .kwIf), sign .openParen, condition, sign .closeParen, block,
      afterBranch]
  | afterBranch =>
    if next = some (.keyword .kwElse) then .become [sign (.keyword .kwElse), otherwise]
    else .become []
  | otherwise => if next = some (.keyword .kwIf) then .become [branch] else .become [block]
  | statement =>
    if next = some (.keyword .kwIf) then .become [branch]
    else if next = some (.keyword .kwWhile) then
      .become [sign (.keyword .kwWhile), sign .openParen, condition, sign .closeParen, block]
    else if next = some (.keyword .kwFor) then
      .become [sign (.keyword .kwFor), sign .openParen, assignment, sign .semicolon, condition,
        sign .semicolon, assignment, sign .closeParen, block]
    else if next = some .identifier ∨ next = some (.keyword .kwInt) ∨
        next = some (.keyword .kwDouble) then
      .become [assignment, sign .semicolon]
    else .refuse
  | block => .become [sign .openCurly, blockRest]
  | blockRest =>
    if next = some .closeCurly then .become [sign .closeCurly]
    else .become [statement, blockRest]
  | program => if next = none then .become [] else .become [statement, program]

/-- The parts that are expected, and how far reading has come. -/
structure Expecting where
  parts : List Part
  cursor : Cursor

/-- One step of reading; there is none if nothing is expected any more, or if the
next token does not fit. -/
def Expecting.step? : Expecting → Option Expecting
  | ⟨[], _⟩ => none
  | ⟨part :: later, cursor⟩ =>
    match part.move cursor.peek?, cursor.tokens with
    | .become parts, _ => some ⟨parts ++ later, cursor⟩
    | .take parts, token :: rest => some ⟨parts ++ later, ⟨token.span, rest⟩⟩
    | _, _ => none

/-- The kinds that a part can be.  A part that goes on from something before it is
seen together with everything that can have been there. -/
def Part.Yields : Part → List TokenKind → Prop
  | sign kind, kinds => kinds = [kind]
  | literal, kinds => Grammar.Literal kinds
  | factor, kinds => Grammar.Factor kinds
  | comparator, kinds => ∃ sign, Grammar.Comparator sign ∧ kinds = [sign]
  | condition, kinds => Grammar.Condition kinds
  | afterFactor, kinds => ∀ left, Grammar.Factor left → Grammar.Expression (left ++ kinds)
  | expression, kinds => Grammar.Expression kinds
  | afterMinus, kinds => Grammar.Expression (.minus :: kinds)
  | change, kinds => Grammar.Update (.identifier :: kinds)
  | assignment, kinds => Grammar.Assignment kinds
  | branch, kinds => Grammar.Branch kinds
  | afterBranch, kinds => ∀ condition body, Grammar.Condition condition → Grammar.Statements body →
      Grammar.Branch (.keyword .kwIf :: Grammar.guarded condition ++ Grammar.braced body ++ kinds)
  | otherwise, kinds => ∀ condition body, Grammar.Condition condition → Grammar.Statements body →
      Grammar.Branch (.keyword .kwIf :: Grammar.guarded condition ++ Grammar.braced body
        ++ .keyword .kwElse :: kinds)
  | statement, kinds => Grammar.Statement kinds
  | block, kinds => ∃ body, Grammar.Statements body ∧ kinds = Grammar.braced body
  | blockRest, kinds => ∃ body, Grammar.Statements body ∧ kinds = body ++ [.closeCurly]
  | program, kinds => Grammar.Statements kinds

/-- The kinds that parts can be, one after another. -/
def Yield : List Part → List TokenKind → Prop
  | [], kinds => kinds = []
  | part :: later, kinds =>
    ∃ first rest, part.Yields first ∧ Yield later rest ∧ kinds = first ++ rest

end Program

end AtomCompiler
