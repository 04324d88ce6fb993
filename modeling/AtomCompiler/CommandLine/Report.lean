import AtomCompiler.Atom.Listing
import AtomCompiler.CommandLine.Arguments
import AtomCompiler.Machine.Emit
import AtomCompiler.Memory.Image
import AtomCompiler.Optimize.Basic
import AtomCompiler.Program.Compile

/-!
# What the compiler does when it is asked

Everything the command does between reading its input and writing its output is
a function of the options and of what was read: what it prints, and then a
failure, the bytes to write, or nothing more.
-/

namespace AtomCompiler

/-- Why a file cannot be read or written. -/
inductive FileError where
  | notFound
  | notText
  deriving DecidableEq, Repr

/-- The wording of a file error. -/
def FileError.message : FileError → String
  | notFound => "No such file or directory (os error 2)"
  | notText => "stream did not contain valid UTF-8"

/-- A failure as it is printed, with its cause if it has one. -/
def failureText (context : String) (cause : Option String) : String :=
  match cause with
  | none => s!"Error: {context}\n"
  | some cause => s!"Error: {context}\n\nCaused by:\n    {cause}\n"

/-- How the work ends: with a message on standard error, with a file to be
written, or just so. -/
inductive Ending where
  | failed (message : String)
  | write (name : String) (bytes : List UInt8)
  | done
  deriving DecidableEq, Repr

/-- What the compiler prints on standard output, and how it ends. -/
structure Report where
  printed : String := ""
  ending : Ending
  deriving DecidableEq, Repr

namespace Report

/-- A failure with a context and a cause. -/
def failed (printed context : String) (cause : Option String) : Report :=
  { printed, ending := .failed (failureText context cause) }

end Report

namespace Options

/-- The atoms of the input before they are optimised, or the message to fail
with. -/
def atoms (options : Options) (text : String) : Except String (List Atom) :=
  match options.mode with
  | .backend =>
    match Listing.read text with
    | .ok atoms => .ok atoms
    | .error error =>
      .error (failureText s!"Malformed atom listing: {options.input}" (some error.message))
  | _ =>
    match compile text with
    | .ok atoms => .ok atoms
    | .error error => .error (error.diagnostics.render ⟨options.input, text⟩)

/-- Writes the atoms as a listing, to a file or to standard output. -/
def reportListing (options : Options) (printed : String) (atoms : List Atom) : Report :=
  if options.output = "-" then { printed := printed ++ Listing.write atoms, ending := .done }
  else { printed, ending := .write options.output (Listing.write atoms).toUTF8.toList }

/-- Writes the atoms as an image, to a file. -/
def reportImage (options : Options) (printed : String) (atoms : List Atom) : Report :=
  match emit atoms options.shortened with
  | .error error => .failed printed "Code generation failed" (some error.message)
  | .ok memory =>
    let printed := if options.dump then printed ++ memory.listing else printed
    if options.output = "-" then
      .failed printed "Refusing to write a binary image to stdout" none
    else { printed, ending := .write options.output memory.image }

/-- All the work on a text. -/
def reportText (options : Options) (text : String) : Report :=
  match options.atoms text with
  | .error message => { ending := .failed message }
  | .ok atoms =>
    let atoms := if options.optimized then optimize atoms else atoms
    let printed := if options.dump then Listing.write atoms else ""
    match options.mode with
    | .frontend => options.reportListing printed atoms
    | _ => options.reportImage printed atoms

/-- All the work on an input that was read, or could not be. -/
def report (options : Options) (input : Except FileError ByteArray) : Report :=
  if options.mode = .vm then .failed "" "The virtual machine is not implemented" none
  else
    let failure (error : FileError) : Report :=
      .failed "" s!"Failed to read input file: {options.input}" (some error.message)
    match input with
    | .error error => failure error
    | .ok bytes =>
      match String.fromUTF8? bytes with
      | none => failure .notText
      | some text => options.reportText text

end Options

end AtomCompiler
