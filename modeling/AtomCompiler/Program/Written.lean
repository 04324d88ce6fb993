import AtomCompiler.Program.Parser

/-!
# Programs and the tokens they are written with

The grammar as relations between a piece of a program and the tokens it is
written with, one relation for each rule and one case for each alternative.
Names and literals are the lexemes of their tokens; of all other tokens only the
kind counts.  The relations do not say how a program is read.
-/

namespace AtomCompiler

namespace Written

/-- One token of the given kind, whatever its lexeme. -/
def Sign (kind : TokenKind) (tokens : List Token) : Prop :=
  ∃ lexeme, tokens = [⟨kind, lexeme⟩]

/-- A literal without a sign. -/
inductive Literal : String → List Token → Prop
  | integer (text : String) : Literal text [⟨.integer, text⟩]
  | double (text : String) : Literal text [⟨.double, text⟩]

/-- `factor := '-'? (INT | DOUBLE) | IDENT` -/
inductive Factor : AtomCompiler.Factor → List Token → Prop
  | identifier (name : String) : Factor (.identifier name) [⟨.identifier, name⟩]
  | literal {text : String} {tokens : List Token} :
      Literal text tokens → Factor (.literal text) tokens
  | negative {text : String} {sign tokens : List Token} :
      Sign .minus sign → Literal text tokens → Factor (.negativeLiteral text) (sign ++ tokens)

/-- `condition := factor cmpOp factor` -/
inductive Condition : AtomCompiler.Condition → List Token → Prop
  | compare {left right : AtomCompiler.Factor} {comparison : Comparison} {kind : TokenKind}
      {leftTokens sign rightTokens : List Token} :
      Factor left leftTokens → kind.comparison? = some comparison → Sign kind sign →
      Factor right rightTokens →
      Condition ⟨left, comparison, right⟩ (leftTokens ++ (sign ++ rightTokens))

/-- `expr := '-' IDENT | factor (mathOp factor)?` -/
inductive Expression : AtomCompiler.Expression → List Token → Prop
  | negated (name : String) {sign : List Token} :
      Sign .minus sign → Expression (.negated name) (sign ++ [⟨.identifier, name⟩])
  | factor {single : AtomCompiler.Factor} {tokens : List Token} :
      Factor single tokens → Expression (.factor single) tokens
  | arithmetic {left right : AtomCompiler.Factor} {operation : Arithmetic} {kind : TokenKind}
      {leftTokens sign rightTokens : List Token} :
      Factor left leftTokens → kind.arithmetic? = some operation → Sign kind sign →
      Factor right rightTokens →
      Expression (.arithmetic operation left right) (leftTokens ++ (sign ++ rightTokens))

/-- What follows the variable of an assignment: `'++' | '--' | '=' expr` -/
inductive Update : AtomCompiler.Update → List Token → Prop
  | increment {sign : List Token} : Sign .increment sign → Update .increment sign
  | decrement {sign : List Token} : Sign .decrement sign → Update .decrement sign
  | set {value : AtomCompiler.Expression} {sign tokens : List Token} :
      Sign .assign sign → Expression value tokens → Update (.set value) (sign ++ tokens)

/-- `assignment := type? IDENT ('++' | '--' | '=' expr)` -/
inductive Assignment : AtomCompiler.Assignment → List Token → Prop
  | untyped (name : String) {update : AtomCompiler.Update} {tokens : List Token} :
      Update update tokens → Assignment ⟨name, update⟩ (⟨.identifier, name⟩ :: tokens)
  | int (name : String) {update : AtomCompiler.Update} {type tokens : List Token} :
      Sign (.keyword .kwInt) type → Update update tokens →
      Assignment ⟨name, update⟩ (type ++ ⟨.identifier, name⟩ :: tokens)
  | double (name : String) {update : AtomCompiler.Update} {type tokens : List Token} :
      Sign (.keyword .kwDouble) type → Update update tokens →
      Assignment ⟨name, update⟩ (type ++ ⟨.identifier, name⟩ :: tokens)

/-- A condition in parentheses. -/
inductive Guard : AtomCompiler.Condition → List Token → Prop
  | parens {condition : AtomCompiler.Condition} {opened tokens closed : List Token} :
      Sign .openParen opened → Condition condition tokens → Sign .closeParen closed →
      Guard condition (opened ++ (tokens ++ closed))

/-- The head of a `for` loop, in parentheses. -/
inductive ForHead :
    AtomCompiler.Assignment → AtomCompiler.Condition → AtomCompiler.Assignment → List Token → Prop
  | parens {init step : AtomCompiler.Assignment} {condition : AtomCompiler.Condition}
      {opened initTokens first tokens second stepTokens closed : List Token} :
      Sign .openParen opened → Assignment init initTokens → Sign .semicolon first →
      Condition condition tokens → Sign .semicolon second → Assignment step stepTokens →
      Sign .closeParen closed →
      ForHead init condition step
        (opened ++ (initTokens ++ (first ++ (tokens ++ (second ++ (stepTokens ++ closed))))))

mutual

/-- `stmt := ifStmt | whileStmt | forStmt | assignment ';'` -/
inductive Statement : AtomCompiler.Statement → List Token → Prop
  | branch {statement : AtomCompiler.Statement} {tokens : List Token} :
      Branch statement tokens → Statement statement tokens
  | whileLoop {condition : AtomCompiler.Condition} {body : AtomCompiler.Statement}
      {word head block : List Token} :
      Sign (.keyword .kwWhile) word → Guard condition head → Block body block →
      Statement (.whileLoop condition body) (word ++ (head ++ block))
  | forLoop {init step : AtomCompiler.Assignment} {condition : AtomCompiler.Condition}
      {body : AtomCompiler.Statement} {word head block : List Token} :
      Sign (.keyword .kwFor) word → ForHead init condition step head → Block body block →
      Statement (.forLoop init condition step body) (word ++ (head ++ block))
  | assign {assignment : AtomCompiler.Assignment} {tokens sign : List Token} :
      Assignment assignment tokens → Sign .semicolon sign →
      Statement (.assign assignment) (tokens ++ sign)

/-- `ifStmt := 'if' '(' condition ')' block ('else' (ifStmt | block))?` -/
inductive Branch : AtomCompiler.Statement → List Token → Prop
  | ifThen {condition : AtomCompiler.Condition} {body : AtomCompiler.Statement}
      {word head block : List Token} :
      Sign (.keyword .kwIf) word → Guard condition head → Block body block →
      Branch (.ifThen condition body) (word ++ (head ++ block))
  | ifElse {condition : AtomCompiler.Condition} {body other : AtomCompiler.Statement}
      {word head block otherwise otherBlock : List Token} :
      Sign (.keyword .kwIf) word → Guard condition head → Block body block →
      Sign (.keyword .kwElse) otherwise → Block other otherBlock →
      Branch (.ifElse condition body other)
        (word ++ (head ++ (block ++ (otherwise ++ otherBlock))))
  | ifElseIf {condition : AtomCompiler.Condition} {body other : AtomCompiler.Statement}
      {word head block otherwise tokens : List Token} :
      Sign (.keyword .kwIf) word → Guard condition head → Block body block →
      Sign (.keyword .kwElse) otherwise → Branch other tokens →
      Branch (.ifElse condition body other) (word ++ (head ++ (block ++ (otherwise ++ tokens))))

/-- `block := '{' stmt* '}'` -/
inductive Block : AtomCompiler.Statement → List Token → Prop
  | braces {body : AtomCompiler.Statement} {opened tokens closed : List Token} :
      Sign .openCurly opened → Statements body tokens → Sign .closeCurly closed →
      Block body (opened ++ (tokens ++ closed))

/-- `program := stmt*` -/
inductive Statements : AtomCompiler.Statement → List Token → Prop
  | nil : Statements .skip []
  | cons {first rest : AtomCompiler.Statement} {firstTokens restTokens : List Token} :
      Statement first firstTokens → Statements rest restTokens →
      Statements (.seq first rest) (firstTokens ++ restTokens)

end

end Written

/-- A list of tokens is a program, and this is the program. -/
def IsWritten (program : Statement) (tokens : List Token) : Prop :=
  Written.Statements program tokens

end AtomCompiler
