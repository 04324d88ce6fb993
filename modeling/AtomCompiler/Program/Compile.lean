import AtomCompiler.Diagnostic
import AtomCompiler.Program.Lower
import AtomCompiler.Program.Parser
import AtomCompiler.Token.Scan

/-!
# From program texts to atoms

A text that scans without a fault and parses is compiled to its atoms.
Otherwise all lexical errors are reported, or the one grammatical error.
-/

namespace AtomCompiler

/-- Why a program text cannot be compiled. -/
inductive SourceError where
  | lexical (errors : List (Located LexicalError))
  | grammatical (error : Located ParseError)
  deriving DecidableEq, Repr

/-- The messages about a text that cannot be compiled. -/
def SourceError.diagnostics : SourceError → Diagnostics
  | lexical errors =>
    { entries := errors.map fun error => ⟨error.value.message, error.span⟩ }
  | grammatical error =>
    { kind := "syntax error", entries := [⟨error.value.message, error.span⟩] }

/-- The atoms of a list of tokens. -/
def compileTokens (tokens : List (Located Token)) : Except SourceError (List Atom) :=
  match Program.parse tokens with
  | .ok program => .ok program.atoms
  | .error error => .error (.grammatical error)

/-- The atoms of a program text. -/
def compile (text : String) : Except SourceError (List Atom) :=
  match tokenize text with
  | .ok tokens => compileTokens tokens
  | .error errors => .error (.lexical errors)

end AtomCompiler
