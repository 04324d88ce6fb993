/-!
# Tokens

The words of the source language: identifiers, keywords, literals, operators and
punctuation.  A token keeps its lexeme, the very characters it was written with,
because numbers are told apart by how they are written.
-/

namespace AtomCompiler

/-- A reserved word. -/
inductive Keyword where
  | kwIf
  | kwElse
  | kwWhile
  | kwFor
  | kwInt
  | kwDouble
  deriving DecidableEq, Repr

namespace Keyword

/-- All keywords. -/
def all : List Keyword := [kwIf, kwElse, kwWhile, kwFor, kwInt, kwDouble]

/-- The spelling of a keyword. -/
def spelling : Keyword → String
  | kwIf => "if"
  | kwElse => "else"
  | kwWhile => "while"
  | kwFor => "for"
  | kwInt => "int"
  | kwDouble => "double"

/-- The keyword with the given spelling. -/
def ofSpelling? (word : String) : Option Keyword :=
  all.find? fun keyword => keyword.spelling = word

/-- A keyword is found by its spelling and by no other word. -/
theorem ofSpelling?_eq_some_iff {word : String} {keyword : Keyword} :
    ofSpelling? word = some keyword ↔ word = keyword.spelling := by
  constructor
  · intro h
    have := List.find?_some h
    simpa using (of_decide_eq_true this).symm
  · rintro rfl
    cases keyword <;> decide

end Keyword

/-- The class of a token. -/
inductive TokenKind where
  | identifier
  | keyword (word : Keyword)
  | integer
  | double
  | assign
  | equal
  | notEqual
  | less
  | lessOrEqual
  | greater
  | greaterOrEqual
  | plus
  | minus
  | times
  | divide
  | increment
  | decrement
  | semicolon
  | openParen
  | closeParen
  | openCurly
  | closeCurly
  deriving DecidableEq, Repr

namespace TokenKind

/-- A class of tokens as messages name it. -/
def describe : TokenKind → String
  | identifier => "identifier"
  | keyword word => s!"keyword `{word.spelling}`"
  | integer => "integer literal"
  | double => "double literal"
  | assign => "`=`"
  | equal => "`==`"
  | notEqual => "`!=`"
  | less => "`<`"
  | lessOrEqual => "`<=`"
  | greater => "`>`"
  | greaterOrEqual => "`>=`"
  | plus => "`+`"
  | minus => "`-`"
  | times => "`*`"
  | divide => "`/`"
  | increment => "`++`"
  | decrement => "`--`"
  | semicolon => "`;`"
  | openParen => "`(`"
  | closeParen => "`)`"
  | openCurly => "`\x7b`"
  | closeCurly => "`\x7d`"

end TokenKind

/-- A word of a program. -/
structure Token where
  kind : TokenKind
  lexeme : String
  deriving DecidableEq, Repr

namespace Token

/-- A token as messages name it: identifiers and literals by their lexeme, all
others by their class. -/
def describe (token : Token) : String :=
  match token.kind with
  | .identifier => s!"identifier `{token.lexeme}`"
  | .integer => s!"literal `{token.lexeme}`"
  | .double => s!"literal `{token.lexeme}`"
  | kind => kind.describe

end Token

end AtomCompiler
