import AtomCompiler.CommandLine.Run

/-!
# The program

Reads the input, prints what the report says, and writes the output.
-/

namespace AtomCompiler

/-- Reads a file. -/
def readInput (name : String) : IO (Except FileError ByteArray) :=
  try
    return .ok (← IO.FS.readBinFile name)
  catch _ =>
    return .error .notFound

/-- Writes a file. -/
def writeOutput (name : String) (bytes : List UInt8) : IO (Except FileError Unit) :=
  try
    IO.FS.writeBinFile name ⟨bytes.toArray⟩
    return .ok ()
  catch _ =>
    return .error .notFound

/-- Compiles as the options ask. -/
def runOptions (options : Options) : IO UInt32 := do
  let report := options.report (← readInput options.input)
  IO.print report.printed
  match report.ending with
  | .failed message =>
    IO.eprint message
    return 1
  | .done => return 0
  | .write name bytes =>
    match ← writeOutput name bytes with
    | .ok () => return 0
    | .error error =>
      IO.eprint (writeFailure name error)
      return 1

end AtomCompiler

open AtomCompiler

/-- Does what the arguments ask for. -/
def main (arguments : List String) : IO UInt32 := do
  match Arguments.parse arguments with
  | none =>
    IO.eprint usageText
    return 2
  | some .version =>
    IO.print versionText
    return 0
  | some .help =>
    IO.print helpText
    return 0
  | some (.compile options) => runOptions options
