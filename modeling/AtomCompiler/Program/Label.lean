/-!
# Generated labels

The labels of a compiled program are named for their purpose and numbered by the
place in the atom list where they were made, so that no two purposes and no two
places share a label.
-/

namespace AtomCompiler

/-- What a generated label is for. -/
inductive LabelBase where
  | afterIf
  | beforeElse
  | beforeWhile
  | afterWhile
  | beforeFor
  | afterFor
  deriving DecidableEq, Repr

namespace LabelBase

/-- The first part of a label's name. -/
def text : LabelBase → String
  | afterIf => "after_if"
  | beforeElse => "before_else"
  | beforeWhile => "before_while"
  | afterWhile => "after_while"
  | beforeFor => "before_for"
  | afterFor => "after_for"

/-- The label for this purpose that was made when the atom list had the given
length. -/
def label (base : LabelBase) (place : Nat) : String :=
  s!"{base.text}_{place}"

end LabelBase

end AtomCompiler
