import AtomCompiler.Execution.Atoms
import AtomCompiler.Execution.Machine
import AtomCompiler.Execution.Statements
import AtomCompiler.Main
import AtomCompiler.Proofs.Acceptance
import AtomCompiler.Proofs.Artifacts
import AtomCompiler.Proofs.Carets
import AtomCompiler.Proofs.CellValues
import AtomCompiler.Proofs.Decisions
import AtomCompiler.Proofs.Dropping
import AtomCompiler.Proofs.FixedPoints
import AtomCompiler.Proofs.LoopsAgree
import AtomCompiler.Proofs.Meaning
import AtomCompiler.Proofs.Merging
import AtomCompiler.Proofs.Nesting
import AtomCompiler.Proofs.Optimizing
import AtomCompiler.Proofs.Partition
import AtomCompiler.Proofs.Refinement
import AtomCompiler.Proofs.Refusals
import AtomCompiler.Proofs.Rehearsals
import AtomCompiler.Proofs.RoundTrip
import AtomCompiler.Proofs.Spacing
import AtomCompiler.Proofs.Stages
import AtomCompiler.Proofs.Stranded
import AtomCompiler.Proofs.WellFormed
