import AtomCompiler.Atom.Basic

/-!
# Programs

The source language has assignments, branches and two kinds of loops.

    program    := stmt*
    stmt       := ifStmt | whileStmt | forStmt | assignment ';'
    ifStmt     := 'if' '(' condition ')' block ('else' (ifStmt | block))?
    whileStmt  := 'while' '(' condition ')' block
    forStmt    := 'for' '(' assignment ';' condition ';' assignment ')' block
    block      := '{' stmt* '}'
    assignment := type? IDENT ('++' | '--' | '=' expr)
    expr       := '-' IDENT | factor (mathOp factor)?
    condition  := factor cmpOp factor
    factor     := '-'? (INT | DOUBLE) | IDENT

A block, and a whole program, is a `seq` of its statements that ends in `skip`;
the declared type of a variable means nothing and is not kept.
-/

namespace AtomCompiler

/-- The smallest part of an expression. -/
inductive Factor where
  | identifier (name : String)
  | literal (text : String)
  | negativeLiteral (text : String)
  deriving DecidableEq, Repr

/-- The operand of an atom that stands for a factor. -/
def Factor.operand : Factor → String
  | identifier name => name
  | literal text => text
  | negativeLiteral text => "-" ++ text

/-- What can stand on the right of an assignment. -/
inductive Expression where
  | factor (single : Factor)
  | negated (name : String)
  | arithmetic (operation : Arithmetic) (left right : Factor)
  deriving DecidableEq, Repr

/-- What an assignment does to its variable. -/
inductive Update where
  | increment
  | decrement
  | set (value : Expression)
  deriving DecidableEq, Repr

/-- A change of one variable. -/
structure Assignment where
  target : String
  update : Update
  deriving DecidableEq, Repr

/-- A comparison of two factors. -/
structure Condition where
  left : Factor
  comparison : Comparison
  right : Factor
  deriving DecidableEq, Repr

/-- A statement, a block or a program. -/
inductive Statement where
  | skip
  | seq (first rest : Statement)
  | assign (assignment : Assignment)
  | ifThen (condition : Condition) (body : Statement)
  | ifElse (condition : Condition) (body other : Statement)
  | whileLoop (condition : Condition) (body : Statement)
  | forLoop (init : Assignment) (condition : Condition) (step : Assignment) (body : Statement)
  deriving DecidableEq, Repr

end AtomCompiler
