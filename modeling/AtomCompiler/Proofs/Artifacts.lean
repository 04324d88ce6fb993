import AtomCompiler.Proofs.Stages

/-!
# What a run leaves behind

A run of the command opens its output only when all of its work is done, so a run that
fails leaves every file as it was, and a run that succeeds changes one file at most.
This depends neither on how files are kept nor on how the arguments are read: all that
matters is that a file is created with all of its bytes or not at all.

* `FileStore.Changes` — one file is written and all others are as they were;
* `Options.Makes` — the bytes that the options ask for, from a text;
* `Options.endsWith_report` — everything that the work can end with;
* `FileStore.leaves_run` — everything that a run can leave behind;
* `command_touches_only_output` — what is left behind by a run.
-/

namespace AtomCompiler

/-! ## Changes -/

namespace FileStore

variable {σ : Type}

/-- One file holds the given bytes afterwards, and all others are as they were. -/
structure Changes (store : FileStore σ) (files after : σ) (path : String) (bytes : ByteArray) :
    Prop where
  read_path : store.read after path = .ok bytes
  read_other : ∀ other, ¬store.SameFile files path other →
    store.read after other = store.read files other

/-- Creating a file changes this file alone. -/
theorem changes_create {store : FileStore σ} {files after : σ} {path : String} {bytes : ByteArray}
    (h : store.create files path bytes = .ok after) : store.Changes files after path bytes :=
  ⟨store.read_created h, fun _ hother => store.read_elsewhere h hother⟩

end FileStore

/-! ## Bytes -/

/-- The bytes that the options ask for, from a text: the listing of a program's atoms,
or the image of the memory that the atoms of a program or of a listing are emitted to.
The atoms are optimised first if that is asked for. -/
inductive Options.Makes (options : Options) (text : String) : ByteArray → Prop
  | listing {atoms : List Atom} (hmode : options.mode = .frontend)
      (hatoms : compile text = .ok atoms) :
      Makes options text (Listing.write (options.kept atoms)).toUTF8
  | image {atoms : List Atom} {memory : Memory} (hmode : options.mode = .full)
      (hatoms : compile text = .ok atoms)
      (hemit : emit (options.kept atoms) options.shortened = .ok memory) :
      Makes options text ⟨memory.image.toArray⟩
  | assembled {atoms : List Atom} {memory : Memory} (hmode : options.mode = .backend)
      (hatoms : Listing.read text = .ok atoms)
      (hemit : emit (options.kept atoms) options.shortened = .ok memory) :
      Makes options text ⟨memory.image.toArray⟩

/-- Everything that the work on an input can end with, by what was read. -/
inductive Options.EndsWith (options : Options) : Except FileError ByteArray → Ending → Prop
  | failed {input : Except FileError ByteArray} (message : String) :
      EndsWith options input (.failed message)
  | done {text : String} {bytes : ByteArray} (hmode : options.mode = .frontend)
      (houtput : options.output = "-") (hmakes : options.Makes text bytes) :
      EndsWith options (.ok text.toUTF8) .done
  | write {text : String} {bytes : List UInt8} (houtput : options.output ≠ "-")
      (hmakes : options.Makes text ⟨bytes.toArray⟩) :
      EndsWith options (.ok text.toUTF8) (.write options.output bytes)

/-- Bytes that were read as a text are the bytes of that text. -/
theorem toUTF8_of_fromUTF8? {bytes : ByteArray} {text : String}
    (h : String.fromUTF8? bytes = some text) : bytes = text.toUTF8 := by
  unfold String.fromUTF8? at h
  split at h
  · obtain rfl := Option.some.inj h
    rfl
  · cases h

namespace Options

variable {options : Options} {text : String} {atoms : List Atom}

/-- Reporting a listing ends with the listing, printed or to be written. -/
theorem endsWith_reportListing (hmode : options.mode = .frontend)
    (hatoms : compile text = .ok atoms) (printed : String) :
    options.EndsWith (.ok text.toUTF8)
      (options.reportListing printed (options.kept atoms)).ending := by
  have hmakes := Makes.listing hmode hatoms
  unfold reportListing
  split
  · next houtput => exact .done hmode houtput hmakes
  · next houtput =>
      refine .write houtput ?_
      rw [mk_toArray_toList]
      exact hmakes

/-- Reporting an image ends with the image to be written, or it fails. -/
theorem endsWith_reportImage (printed : String)
    (hmakes : ∀ memory, emit atoms options.shortened = .ok memory →
      options.Makes text ⟨memory.image.toArray⟩) :
    options.EndsWith (.ok text.toUTF8) (options.reportImage printed atoms).ending := by
  unfold reportImage
  cases hemit : emit atoms options.shortened with
  | error error => exact .failed _
  | ok memory =>
      by_cases houtput : options.output = "-"
      · simp only [if_pos houtput]
        exact .failed _
      · simp only [if_neg houtput]
        exact .write houtput (hmakes memory hemit)

/-- Where the atoms of an input come from. -/
theorem atoms_cases (h : options.atoms text = .ok atoms) :
    options.mode = .backend ∧ Listing.read text = .ok atoms ∨
      options.mode ≠ .backend ∧ compile text = .ok atoms := by
  unfold Options.atoms at h
  split at h
  · next hmode =>
      cases hread : Listing.read text with
      | error error => simp [hread] at h
      | ok found =>
          simp only [hread, Except.ok.injEq] at h
          exact .inl ⟨hmode, by rw [h]⟩
  · next hmode =>
      cases hcompile : compile text with
      | error error => simp [hcompile] at h
      | ok found =>
          simp only [hcompile, Except.ok.injEq] at h
          exact .inr ⟨hmode, by rw [h]⟩

/-- Work on a text ends as its mode asks. -/
theorem endsWith_reportText (hvm : options.mode ≠ .vm) (text : String) :
    options.EndsWith (.ok text.toUTF8) (options.reportText text).ending := by
  rw [reportText]
  cases hatoms : options.atoms text with
  | error message => exact .failed message
  | ok atoms =>
      obtain ⟨hmode, hread⟩ | ⟨hbackend, hcompile⟩ := atoms_cases hatoms
      · simp only [hmode]
        exact endsWith_reportImage _ fun memory hemit => .assembled hmode hread hemit
      · cases hmode : options.mode with
        | frontend => exact endsWith_reportListing hmode hcompile _
        | backend => exact (hbackend hmode).elim
        | full => exact endsWith_reportImage _ fun memory hemit => .image hmode hcompile hemit
        | vm => exact (hvm hmode).elim

/-- **Everything that the work can end with.** -/
theorem endsWith_report (options : Options) (input : Except FileError ByteArray) :
    options.EndsWith input (options.report input).ending := by
  by_cases hvm : options.mode = .vm
  · rw [report, if_pos hvm]
    exact .failed _
  · cases input with
    | error error =>
        rw [report, if_neg hvm]
        exact .failed _
    | ok bytes =>
        cases htext : String.fromUTF8? bytes with
        | none =>
            simp only [report, if_neg hvm, htext]
            exact .failed _
        | some text =>
            obtain rfl := toUTF8_of_fromUTF8? htext
            rw [report_toUTF8 hvm]
            exact endsWith_reportText hvm text

/-- An image that can be emitted is to be written. -/
theorem ending_reportImage {memory : Memory} (houtput : options.output ≠ "-")
    (hemit : emit atoms options.shortened = .ok memory) (printed : String) :
    (options.reportImage printed atoms).ending = .write options.output memory.image := by
  simp only [reportImage, hemit, if_neg houtput]

/-- **The bytes that are asked for are made,** if there is a file to hold them. -/
theorem Makes.ending_report {bytes : ByteArray} (h : options.Makes text bytes)
    (houtput : options.output ≠ "-") :
    ∃ list, (options.report (.ok text.toUTF8)).ending = .write options.output list ∧
      ⟨list.toArray⟩ = bytes := by
  cases h with
  | listing hmode hatoms =>
      refine ⟨_, ?_, mk_toArray_toList _⟩
      rw [report_toUTF8 (by simp [hmode])]
      simp only [reportText, Options.atoms, hmode, hatoms, reportListing, if_neg houtput]
      rfl
  | image hmode hatoms hemit =>
      refine ⟨_, ?_, rfl⟩
      rw [report_toUTF8 (by simp [hmode])]
      simp only [reportText, Options.atoms, hmode, hatoms]
      exact ending_reportImage houtput hemit _
  | assembled hmode hatoms hemit =>
      refine ⟨_, ?_, rfl⟩
      rw [report_toUTF8 (by simp [hmode])]
      simp only [reportText, Options.atoms, hmode, hatoms]
      exact ending_reportImage houtput hemit _

end Options

/-! ## Runs -/

namespace FileStore

variable {σ : Type} {store : FileStore σ} {options : Options} {files : σ}

/-- What a run leaves behind, by its exit code. -/
inductive Leaves (store : FileStore σ) (options : Options) (files : σ) : Nat → σ → Prop
  | failed : Leaves store options files 1 files
  | printed {text : String} {bytes : ByteArray}
      (hinput : store.read files options.input = .ok text.toUTF8)
      (hmakes : options.Makes text bytes) (hmode : options.mode = .frontend)
      (houtput : options.output = "-") : Leaves store options files 0 files
  | created {text : String} {bytes : ByteArray} {after : σ}
      (hinput : store.read files options.input = .ok text.toUTF8)
      (hmakes : options.Makes text bytes) (houtput : options.output ≠ "-")
      (hcreate : store.create files options.output bytes = .ok after) :
      Leaves store options files 0 after

/-- **Everything that a run can leave behind.** -/
theorem leaves_run (store : FileStore σ) (options : Options) (files : σ) :
    store.Leaves options files (store.run options files).exit (store.run options files).files := by
  have hends := options.endsWith_report (store.read files options.input)
  simp only [run]
  generalize hinput : store.read files options.input = input at hends ⊢
  generalize options.report input = report at hends ⊢
  obtain ⟨printed, ending⟩ := report
  cases hends with
  | failed message => exact .failed
  | done hmode houtput hmakes => exact .printed hinput hmakes hmode houtput
  | @write text bytes houtput hmakes =>
      simp only
      cases hcreate : store.create files options.output ⟨bytes.toArray⟩ with
      | ok after => exact .created hinput hmakes houtput hcreate
      | error error => exact .failed

/-- A run that fails leaves the files as they were. -/
theorem Leaves.eq_of_ne_zero {exit : Nat} {after : σ} (h : store.Leaves options files exit after)
    (hexit : exit ≠ 0) : after = files := by
  cases h with
  | failed => rfl
  | printed => rfl
  | created => exact (hexit rfl).elim

/-- A run that succeeds has made the bytes that were asked for. -/
theorem Leaves.makes_of_eq_zero {exit : Nat} {after : σ}
    (h : store.Leaves options files exit after) (hexit : exit = 0) :
    ∃ text bytes, store.read files options.input = .ok text.toUTF8 ∧ options.Makes text bytes ∧
      (options.mode = .frontend ∧ options.output = "-" ∧ after = files ∨
        options.output ≠ "-" ∧ store.Changes files after options.output bytes) := by
  cases h with
  | failed => cases hexit
  | printed hinput hmakes hmode houtput =>
      exact ⟨_, _, hinput, hmakes, .inl ⟨hmode, houtput, rfl⟩⟩
  | created hinput hmakes houtput hcreate =>
      exact ⟨_, _, hinput, hmakes, .inr ⟨houtput, changes_create hcreate⟩⟩

/-- A run whose bytes can be made and whose output can be created succeeds. -/
theorem run_of_create {text : String} {bytes : ByteArray} {after : σ}
    (hinput : store.read files options.input = .ok text.toUTF8) (hmakes : options.Makes text bytes)
    (houtput : options.output ≠ "-")
    (hcreate : store.create files options.output bytes = .ok after) :
    (store.run options files).exit = 0 ∧ (store.run options files).files = after := by
  obtain ⟨list, hending, rfl⟩ := hmakes.ending_report houtput
  simp only [run, hinput, hending, hcreate, and_self]

end FileStore

/-- **A run touches only its output, and only if it succeeds.**  The command in a
directory is a run with files of one kind and with arguments read in one way, so let
files be kept and arguments be read in any way.  If the exit code is not zero, the files
are as they were.  If it is zero, then the version or help was asked for and they are as
they were, or the bytes that the options ask for were made from the input: they were
printed, or the output holds them now and all other files are as they were.  And where
these bytes can be made and the output can be created, this is what happens. -/
theorem command_touches_only_output :
    (∀ arguments directory, runCommand arguments directory =
      Directory.store.command Arguments.parse arguments directory) ∧
    ∀ {σ : Type} (store : FileStore σ) (parse : List String → Option Request)
      (arguments : List String) (files : σ),
      let outcome := store.command parse arguments files
      (outcome.exit ≠ 0 → outcome.files = files) ∧
      (outcome.exit = 0 →
        (parse arguments = some .version ∨ parse arguments = some .help) ∧
          outcome.files = files ∨
        ∃ options text bytes, parse arguments = some (.compile options) ∧
          store.read files options.input = .ok text.toUTF8 ∧ options.Makes text bytes ∧
          (options.mode = .frontend ∧ options.output = "-" ∧ outcome.files = files ∨
            options.output ≠ "-" ∧
              store.Changes files outcome.files options.output bytes)) ∧
      ∀ options text bytes changed, parse arguments = some (.compile options) →
        store.read files options.input = .ok text.toUTF8 → options.Makes text bytes →
        options.output ≠ "-" → store.create files options.output bytes = .ok changed →
        outcome.exit = 0 ∧ outcome.files = changed := by
  refine ⟨fun arguments directory => rfl, fun {σ} store parse arguments files => ?_⟩
  cases hparse : parse arguments with
  | none => simp [FileStore.command, hparse]
  | some request =>
      cases request with
      | version => simp [FileStore.command, hparse]
      | help => simp [FileStore.command, hparse]
      | compile options =>
          have hcommand : store.command parse arguments files = store.run options files := by
            rw [FileStore.command, hparse]
          have hleaves := store.leaves_run options files
          rw [hcommand]
          refine ⟨hleaves.eq_of_ne_zero, fun hexit => .inr ?_, ?_⟩
          · obtain ⟨text, bytes, hmade⟩ := hleaves.makes_of_eq_zero hexit
            exact ⟨options, text, bytes, rfl, hmade⟩
          · intro other text bytes changed hother hinput hmakes houtput hcreate
            obtain rfl := Request.compile.inj (Option.some.inj hother)
            exact FileStore.run_of_create hinput hmakes houtput hcreate

/-- The program with a dead branch is compiled in its directory: the image is there
afterwards and the program is as it was.  A program that is not there leaves the directory
as it was. -/
theorem command_touches_only_output_deadBranch :
    let made := runCommand ["-gl", "branch", "-o", "image"] workplace
    let missed := runCommand ["-gl", "twig", "-o", "image"] workplace
    (made.exit = 0 ∧ made.directory.read "branch" = workplace.read "branch" ∧
      ∃ atoms memory, compile deadBranch = .ok atoms ∧
        emit (optimize atoms) true = .ok memory ∧
        made.directory.read "image" = .ok ⟨memory.image.toArray⟩) ∧
    missed.exit ≠ 0 ∧ missed.directory = workplace := by
  intro made missed
  constructor
  · have hparse : Arguments.parse ["-gl", "branch", "-o", "image"] =
        some (.compile bothFlags) := by decide +kernel
    have hemits : ((compile deadBranch).toOption.bind fun atoms =>
        (emit (optimize atoms) true).toOption).isSome = true := by decide +kernel
    obtain ⟨memory, hemits⟩ := Option.isSome_iff_exists.mp hemits
    obtain ⟨atoms, hatoms, hmemory⟩ := Option.bind_eq_some_iff.mp hemits
    have hatoms := eq_ok_of_toOption hatoms
    have hemit := eq_ok_of_toOption hmemory
    have hmakes : bothFlags.Makes deadBranch ⟨memory.image.toArray⟩ := .image rfl hatoms hemit
    have himage : Directory.IsFile "image" := ⟨by decide, by decide +kernel⟩
    have hnames : Directory.nameOf? "image" ≠ Directory.nameOf? "branch" := by decide +kernel
    obtain ⟨changed, hcreate⟩ := (himage.canCreate workplace).2 ⟨memory.image.toArray⟩
    obtain ⟨-, hsucceeds, hcreates⟩ := command_touches_only_output.2 Directory.store
      Arguments.parse ["-gl", "branch", "-o", "image"] workplace
    obtain ⟨hexit, hfiles⟩ :=
      hcreates bothFlags deadBranch _ changed hparse rfl hmakes (by decide) hcreate
    refine ⟨hexit, ?_, atoms, memory, hatoms, hemit, ?_⟩
    · obtain ⟨hversion | hhelp, -⟩ | ⟨found, text, bytes, hfound, -, -, hchanged⟩ :=
        hsucceeds hexit
      · simp [hparse] at hversion
      · simp [hparse] at hhelp
      · obtain rfl := Request.compile.inj (Option.some.inj (hparse.symm.trans hfound))
        obtain ⟨-, houtput, -⟩ | ⟨-, hchanges⟩ := hchanged
        · exact absurd houtput (by decide)
        · exact hchanges.read_other "branch" hnames
    · have hread := Directory.store.read_created hcreate
      rwa [← hfiles] at hread
  · have hexit : missed.exit ≠ 0 := by decide +kernel
    exact ⟨hexit, (command_touches_only_output.2 Directory.store _ _ _).1 hexit⟩

end AtomCompiler
