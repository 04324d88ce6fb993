import AtomCompiler.CommandLine.Files

/-!
# Runs of the command

A run of the whole command: its exit code, what it prints, and the files afterwards.
Files may be kept in any way and the arguments may be read in any way; `runCommand`
takes the files of a directory and the arguments of `Arguments.parse`.
-/

namespace AtomCompiler

/-- The text for `--version`. -/
def versionText : String := "atomc 1.0.0\n"

/-- The text for `--help`. -/
def helpText : String :=
  versionText
    ++ "Compiles programs to accumulator machine images\n"
    ++ "\n"
    ++ "USAGE:\n"
    ++ "    atomc [OPTIONS] --output <FILE> <INPUT>\n"
    ++ "\n"
    ++ "ARGS:\n"
    ++ "    <INPUT>    Source file, or atom listing for the backend\n"
    ++ "\n"
    ++ "OPTIONS:\n"
    ++ "    -d, --dump             Print atoms and a program listing to stdout\n"
    ++ "    -g, --global           Remove unreachable code and dead branches\n"
    ++ "    -h, --help             Print help information\n"
    ++ "    -l, --local            Apply peephole optimizations to machine code\n"
    ++ "    -m, --mode <MODE>      Compiler stages to run [default: full] "
    ++ "[possible values: frontend,\n"
    ++ "                           backend, full, vm]\n"
    ++ "    -o, --output <FILE>    Output file ('-' along with frontend mode for stdout)\n"
    ++ "    -V, --version          Print version information\n"

/-- The text for arguments that are not in order. -/
def usageText : String :=
  "error: The arguments are not in order\n\n"
    ++ "USAGE:\n    atomc [OPTIONS] --output <FILE> <INPUT>\n\n"
    ++ "For more information try --help\n"

/-- What a run leaves behind. -/
structure Outcome (σ : Type) where
  exit : Nat
  printed : String := ""
  errors : String := ""
  files : σ

/-- The directory that a run leaves behind. -/
def Outcome.directory (outcome : Outcome Directory) : Directory :=
  outcome.files

/-- The message for an output that cannot be written. -/
def writeFailure (name : String) (error : FileError) : String :=
  failureText s!"Failed to open for writing: {name}" (some error.message)

namespace FileStore

variable {σ : Type}

/-- A run of the compiler with the given options. -/
def run (store : FileStore σ) (options : Options) (files : σ) : Outcome σ :=
  let report := options.report (store.read files options.input)
  match report.ending with
  | .failed message => { exit := 1, printed := report.printed, errors := message, files }
  | .done => { exit := 0, printed := report.printed, files }
  | .write name bytes =>
    match store.create files name ⟨bytes.toArray⟩ with
    | .ok files => { exit := 0, printed := report.printed, files }
    | .error error =>
      { exit := 1, printed := report.printed, errors := writeFailure name error, files }

/-- A run of the command with the given arguments, which are read by `parse`. -/
def command (store : FileStore σ) (parse : List String → Option Request)
    (arguments : List String) (files : σ) : Outcome σ :=
  match parse arguments with
  | none => { exit := 2, errors := usageText, files }
  | some .version => { exit := 0, printed := versionText, files }
  | some .help => { exit := 0, printed := helpText, files }
  | some (.compile options) => store.run options files

end FileStore

/-- A run of the command with the given arguments in a directory. -/
def runCommand (arguments : List String) (directory : Directory) : Outcome Directory :=
  Directory.store.command Arguments.parse arguments directory

end AtomCompiler
