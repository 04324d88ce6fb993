import AtomCompiler.Token.Basic

/-!
# The grammar of programs

The grammar as relations on lists of token kinds, one for each rule and one case
for each alternative.  It does not say how a program is read.
-/

namespace AtomCompiler

namespace Grammar

/-- A literal. -/
inductive Literal : List TokenKind → Prop
  | integer : Literal [.integer]
  | double : Literal [.double]

/-- `factor := '-'? (INT | DOUBLE) | IDENT` -/
inductive Factor : List TokenKind → Prop
  | identifier : Factor [.identifier]
  | literal {kinds : List TokenKind} : Literal kinds → Factor kinds
  | negative {kinds : List TokenKind} : Literal kinds → Factor (.minus :: kinds)

/-- `cmpOp := '==' | '!=' | '<' | '<=' | '>' | '>='` -/
inductive Comparator : TokenKind → Prop
  | equal : Comparator .equal
  | notEqual : Comparator .notEqual
  | less : Comparator .less
  | lessOrEqual : Comparator .lessOrEqual
  | greater : Comparator .greater
  | greaterOrEqual : Comparator .greaterOrEqual

/-- `mathOp := '+' | '-' | '*' | '/'` -/
inductive Operator : TokenKind → Prop
  | plus : Operator .plus
  | minus : Operator .minus
  | times : Operator .times
  | divide : Operator .divide

/-- `condition := factor cmpOp factor` -/
inductive Condition : List TokenKind → Prop
  | compare {left right : List TokenKind} {sign : TokenKind} :
      Factor left → Comparator sign → Factor right → Condition (left ++ sign :: right)

/-- `expr := '-' IDENT | factor (mathOp factor)?` -/
inductive Expression : List TokenKind → Prop
  | negated : Expression [.minus, .identifier]
  | factor {kinds : List TokenKind} : Factor kinds → Expression kinds
  | arithmetic {left right : List TokenKind} {sign : TokenKind} :
      Factor left → Operator sign → Factor right → Expression (left ++ sign :: right)

/-- `IDENT ('++' | '--' | '=' expr)` -/
inductive Update : List TokenKind → Prop
  | increment : Update [.identifier, .increment]
  | decrement : Update [.identifier, .decrement]
  | set {kinds : List TokenKind} : Expression kinds → Update (.identifier :: .assign :: kinds)

/-- `assignment := type? IDENT ('++' | '--' | '=' expr)` -/
inductive Assignment : List TokenKind → Prop
  | untyped {kinds : List TokenKind} : Update kinds → Assignment kinds
  | int {kinds : List TokenKind} : Update kinds → Assignment (.keyword .kwInt :: kinds)
  | double {kinds : List TokenKind} : Update kinds → Assignment (.keyword .kwDouble :: kinds)

/-- A condition in parentheses. -/
def guarded (kinds : List TokenKind) : List TokenKind :=
  .openParen :: kinds ++ [.closeParen]

/-- Statements in curly braces. -/
def braced (kinds : List TokenKind) : List TokenKind :=
  .openCurly :: kinds ++ [.closeCurly]

/-- The head of a `for` loop, in parentheses. -/
def forHead (init condition step : List TokenKind) : List TokenKind :=
  guarded (init ++ .semicolon :: condition ++ .semicolon :: step)

mutual

/-- `stmt := ifStmt | whileStmt | forStmt | assignment ';'` -/
inductive Statement : List TokenKind → Prop
  | branch {kinds : List TokenKind} : Branch kinds → Statement kinds
  | whileLoop {condition body : List TokenKind} : Condition condition → Statements body →
      Statement (.keyword .kwWhile :: guarded condition ++ braced body)
  | forLoop {init condition step body : List TokenKind} :
      Assignment init → Condition condition → Assignment step → Statements body →
      Statement (.keyword .kwFor :: forHead init condition step ++ braced body)
  | assign {kinds : List TokenKind} : Assignment kinds → Statement (kinds ++ [.semicolon])

/-- `ifStmt := 'if' '(' condition ')' block ('else' (ifStmt | block))?` -/
inductive Branch : List TokenKind → Prop
  | ifThen {condition body : List TokenKind} : Condition condition → Statements body →
      Branch (.keyword .kwIf :: guarded condition ++ braced body)
  | ifElse {condition body other : List TokenKind} :
      Condition condition → Statements body → Statements other →
      Branch (.keyword .kwIf :: guarded condition ++ braced body
        ++ .keyword .kwElse :: braced other)
  | ifElseIf {condition body other : List TokenKind} :
      Condition condition → Statements body → Branch other →
      Branch (.keyword .kwIf :: guarded condition ++ braced body ++ .keyword .kwElse :: other)

/-- `program := stmt*` -/
inductive Statements : List TokenKind → Prop
  | nil : Statements []
  | cons {first rest : List TokenKind} : Statement first → Statements rest →
      Statements (first ++ rest)

end

end Grammar

/-- A list of token kinds that is a program. -/
def IsProgram (kinds : List TokenKind) : Prop := Grammar.Statements kinds

end AtomCompiler
