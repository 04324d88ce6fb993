import AtomCompiler.Optimize.Fold
import AtomCompiler.Optimize.Unreachable

/-!
# The optimiser for atoms

Unreachable atoms go first, then the branches that are never taken.  Neither
pass changes an atom; each only deletes.
-/

namespace AtomCompiler

/-- Both passes over an atom list. -/
def optimize (atoms : List Atom) : List Atom :=
  foldBranches (removeUnreachable atoms)

end AtomCompiler
