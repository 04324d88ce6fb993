/-!
# Command-line arguments

    [OPTIONS] --output <FILE> <INPUT>

Options may stand before, between and after the input.  A long option takes its
value after an equals sign or from the next argument; short options may be
joined, and one that takes a value takes the rest of the argument, without a
leading equals sign, or the next argument.  An argument that begins with a
hyphen is no value, except the hyphen alone.  After a double hyphen nothing is
an option.

What is no option, a second input, and a value for an option that takes none are
refused at once.  The other faults, a missing or repeated option and an unknown
mode, only count when all arguments have been looked at, so a request for the
version or for help comes before them.
-/

namespace AtomCompiler

/-- Which stages of the compiler to run. -/
inductive Mode where
  /-- From a program to an atom listing. -/
  | frontend
  /-- From an atom listing to an image. -/
  | backend
  /-- From a program to an image. -/
  | full
  /-- Running a program; there is no such stage yet. -/
  | vm
  deriving DecidableEq, Repr

/-- The mode with the given name. -/
def Mode.ofName? : String → Option Mode
  | "frontend" => some frontend
  | "backend" => some backend
  | "full" => some full
  | "vm" => some vm
  | _ => none

/-- What the compiler is asked to do. -/
structure Options where
  input : String
  output : String
  mode : Mode := .full
  /-- Optimise the atoms. -/
  optimized : Bool := false
  /-- Drop redundant loads and stores. -/
  shortened : Bool := false
  /-- Print the atoms and the memory. -/
  dump : Bool := false
  deriving DecidableEq, Repr

/-- What a command line asks for. -/
inductive Request where
  | version
  | help
  | compile (options : Options)
  deriving DecidableEq, Repr

/-- The options by their names. -/
inductive OptionName where
  | output
  | mode
  | optimized
  | shortened
  | dump
  | version
  | help
  deriving DecidableEq, Repr

namespace OptionName

/-- The option with the given long name. -/
def ofLong? : String → Option OptionName
  | "output" => some output
  | "mode" => some mode
  | "global" => some optimized
  | "local" => some shortened
  | "dump" => some dump
  | "version" => some version
  | "help" => some help
  | _ => none

/-- The option with the given letter. -/
def ofShort? : Char → Option OptionName
  | 'o' => some output
  | 'm' => some mode
  | 'g' => some optimized
  | 'l' => some shortened
  | 'd' => some dump
  | 'V' => some version
  | 'h' => some help
  | _ => none

/-- Whether an option takes a value. -/
def takesValue : OptionName → Bool
  | output => true
  | mode => true
  | _ => false

end OptionName

/-- What has been found among the arguments: the input, each option with its
value, first to last, and an option that waits for its value. -/
structure Found where
  input : Option String := none
  options : List (OptionName × Option String) := []
  waiting : Option OptionName := none
  deriving DecidableEq, Repr

namespace Found

/-- Adds an option. -/
def add (found : Found) (name : OptionName) (value : Option String) : Found :=
  { found with options := found.options ++ [(name, value)] }

/-- Gives up waiting: an option that still waits has no value. -/
def settle (found : Found) : Found :=
  match found.waiting with
  | some name => { found.add name none with waiting := none }
  | none => found

/-- The values of all uses of an option. -/
def uses (found : Found) (name : OptionName) : List (Option String) :=
  found.options.filterMap fun (other, value) => if other = name then some value else none

/-- Whether an option without a value was given, unless it was given twice. -/
def flag? (found : Found) (name : OptionName) : Option Bool :=
  match found.uses name with
  | [] => some false
  | [_] => some true
  | _ => none

/-- The mode, unless it is unknown, without a value or given twice. -/
def mode? (found : Found) : Option Mode :=
  match found.uses .mode with
  | [] => some .full
  | [some name] => Mode.ofName? name
  | _ => none

/-- The output, unless it is missing, without a value or given twice. -/
def output? (found : Found) : Option String :=
  match found.uses .output with
  | [some output] => some output
  | _ => none

/-- The options that were found, if they are complete. -/
def options? (found : Found) : Option Options := do
  let input ← found.input
  let output ← found.output?
  let mode ← found.mode?
  let optimized ← found.flag? .optimized
  let shortened ← found.flag? .shortened
  let dump ← found.flag? .dump
  return { input, output, mode, optimized, shortened, dump }

end Found

namespace Arguments

/-- What comes of an argument: the arguments are refused, or they ask for
something else than compiling, or the next argument is looked at. -/
inductive Look where
  | refused
  | asked (request : Request)
  | more (found : Found)
  deriving DecidableEq, Repr

/-- Whether an argument can be the value of the option before it. -/
def isValue (argument : String) : Bool :=
  argument = "-" || argument.toList.head? ≠ some '-'

/-- An option by itself, which waits for its value if it takes one. -/
def lookOption (found : Found) : OptionName → Look
  | .version => .asked .version
  | .help => .asked .help
  | name =>
    if name.takesValue then .more { found with waiting := some name }
    else .more (found.add name none)

/-- An option with a value. -/
def lookValue (found : Found) (name : OptionName) (value : List Char) : Look :=
  if name.takesValue then .more (found.add name (some (String.ofList value))) else .refused

/-- The letters of joined short options; behind one that takes a value the rest
is its value. -/
def lookShort (found : Found) : List Char → Look
  | [] => .more found
  | letter :: letters =>
    match OptionName.ofShort? letter with
    | none => .refused
    | some name =>
      if name.takesValue then
        match letters with
        | [] => lookOption found name
        | '=' :: value => lookValue found name value
        | value => lookValue found name value
      else
        match lookOption found name with
        | .more found => lookShort found letters
        | look => look

/-- A long option, with the value behind its equals sign if there is one. -/
def lookLong (found : Found) (text : List Char) : Look :=
  match OptionName.ofLong? (String.ofList (text.takeWhile (· != '='))) with
  | none => .refused
  | some name =>
    match text.dropWhile (· != '=') with
    | [] => lookOption found name
    | _ :: value => lookValue found name value

/-- An argument that is no option: the input, once. -/
def lookInput (found : Found) (argument : String) : Look :=
  if found.input.isSome then .refused else .more { found with input := some argument }

/-- An argument, where options may come. -/
def look (found : Found) (argument : String) : Look :=
  match argument.toList with
  | '-' :: '-' :: text => lookLong found text
  | '-' :: letter :: letters => lookShort found (letter :: letters)
  | _ => lookInput found argument

/-- The arguments after a double hyphen, none of them an option. -/
def collectInputs (found : Found) : List String → Option Request
  | [] => found.options?.map .compile
  | argument :: rest =>
    match lookInput found argument with
    | .more found => collectInputs found rest
    | _ => none

/-- The arguments where options may come. -/
def collect (found : Found) : List String → Option Request
  | [] => found.settle.options?.map .compile
  | argument :: rest =>
    match found.waiting, isValue argument with
    | some name, true => collect { found.add name (some argument) with waiting := none } rest
    | _, _ =>
      if argument = "--" then collectInputs found.settle rest
      else
        match look found.settle argument with
        | .refused => none
        | .asked request => some request
        | .more found => collect found rest

/-- What the arguments of the program ask for; nothing if they are not in order. -/
def parse (arguments : List String) : Option Request :=
  collect {} arguments

end Arguments

end AtomCompiler
