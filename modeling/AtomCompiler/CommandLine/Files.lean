import AtomCompiler.CommandLine.Report

/-!
# Files

The command reads one file and creates one.  How files are kept and how paths lead to
them does not matter to it, so this is a parameter: a `FileStore` reads files and creates
them with all of their bytes or not at all.  A `Directory` is one way to keep files.
-/

namespace AtomCompiler

/-- Files that are read and created by their paths.  A file that cannot be created
leaves everything as it was; one that is created holds all of its bytes, and then no
path that leads elsewhere finds anything new. -/
structure FileStore (σ : Type) where
  read : σ → String → Except FileError ByteArray
  create : σ → String → ByteArray → Except FileError σ
  SameFile : σ → String → String → Prop
  read_created {files after : σ} {path : String} {bytes : ByteArray}
    (h : create files path bytes = .ok after) : read after path = .ok bytes
  read_elsewhere {files after : σ} {path other : String} {bytes : ByteArray}
    (h : create files path bytes = .ok after) (hother : ¬SameFile files path other) :
    read after other = read files other

/-- A directory: its files, by name. -/
structure Directory where
  files : List (String × ByteArray)

namespace Directory

/-- The name of a file in the directory that a path leads to.  A path may pass
through the directory itself, but there are no other directories in it. -/
def nameOf? (path : String) : Option String :=
  let parts := (path.toList.splitOn '/').map String.ofList
  match parts.getLast?, parts.dropLast with
  | some name, folders =>
    if name = "" ∨ name = "." ∨ name = ".." ∨ folders.head? = some "" then none
    else if folders.all fun folder => folder = "." || folder = "" then some name
    else none
  | none, _ => none

/-- The contents of a file. -/
def read (directory : Directory) (path : String) : Except FileError ByteArray :=
  match (nameOf? path).bind fun name => directory.files.lookup name with
  | some bytes => .ok bytes
  | none => .error .notFound

/-- The directory with a file created, or written over. -/
def write (directory : Directory) (path : String) (bytes : ByteArray) :
    Except FileError Directory :=
  match nameOf? path with
  | some name => .ok ⟨(name, bytes) :: directory.files.filter fun file => file.1 ≠ name⟩
  | none => .error .notFound

/-- A file that was written holds its bytes. -/
theorem read_written {directory written : Directory} {path : String} {bytes : ByteArray}
    (h : directory.write path bytes = .ok written) : written.read path = .ok bytes := by
  cases hname : nameOf? path with
  | none => simp [write, hname] at h
  | some name =>
      simp only [write, hname] at h
      obtain rfl := Except.ok.inj h
      simp [read, hname]

/-- A name other than the one that is left out is looked up as before. -/
theorem lookup_filter_ne {name other : String} (h : other ≠ name)
    (files : List (String × ByteArray)) :
    (files.filter fun file => file.1 ≠ name).lookup other = files.lookup other := by
  induction files with
  | nil => rfl
  | cons file files ih =>
      by_cases hfile : file.1 = name
      · have hne : (other == file.1) = false := by simpa [hfile] using h
        rw [List.filter_cons_of_neg (by simpa using hfile), ih, List.lookup_cons, hne]
      · rw [List.filter_cons_of_pos (by simpa using hfile), List.lookup_cons, List.lookup_cons, ih]

/-- Writing a file leaves the files of all other names as they were. -/
theorem read_elsewhere {directory written : Directory} {path other : String} {bytes : ByteArray}
    (h : directory.write path bytes = .ok written) (hother : nameOf? path ≠ nameOf? other) :
    written.read other = directory.read other := by
  cases hname : nameOf? path with
  | none => simp [write, hname] at h
  | some name =>
      simp only [write, hname] at h
      obtain rfl := Except.ok.inj h
      cases hfound : nameOf? other with
      | none => simp [read, hfound]
      | some found =>
          have hne : found ≠ name := by
            intro heq
            exact hother (by rw [hname, hfound, heq])
          have hlookup : List.lookup found
              ((name, bytes) :: directory.files.filter fun file => file.1 ≠ name) =
              directory.files.lookup found := by
            rw [List.lookup_cons, beq_false_of_ne hne, lookup_filter_ne hne]
          simp only [read, hfound, Option.bind_some, hlookup]

/-- A directory keeps files: a path leads to the file that it names. -/
def store : FileStore Directory where
  read := read
  create := write
  SameFile _ path other := nameOf? path = nameOf? other
  read_created := read_written
  read_elsewhere := read_elsewhere

end Directory

end AtomCompiler
