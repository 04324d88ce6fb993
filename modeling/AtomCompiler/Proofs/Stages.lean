import AtomCompiler.CommandLine.Run
import AtomCompiler.Proofs.Listings
import AtomCompiler.Proofs.Meaning
import AtomCompiler.Proofs.Shrinking

/-!
# Compiling in two halves

An image can be made at once, or by way of a listing: a run that stops at the atoms
and writes them down, and a second run that reads them and goes on.  Nothing is lost
on the way, because the texts of a compiled program are plain and so its atoms can be
written.

* `isPlain_of_compile` — the fields of a compiled atom are plain texts;
* `Pruned.read_write` — so compiled atoms are read back, optimised or not;
* `Options.report_backHalf` — the second half reports what the run at once reports;
* `halves_compile_as_one` — the two halves end as the run at once does.
-/

namespace AtomCompiler

/-! ## Plain texts -/

/-- Bounds on a character as a word of bits are bounds on its code point. -/
theorem toNat_bounds {c : Char} {first last : UInt32} (hfirst : first ≤ c.val)
    (hlast : c.val ≤ last) : first.toNat ≤ c.toNat ∧ c.toNat ≤ last.toNat :=
  ⟨UInt32.le_iff_toNat_le.mp hfirst, UInt32.le_iff_toNat_le.mp hlast⟩

/-- The characters of words are plain. -/
theorem isPlainCharacter_of_isWordCharacter {c : Char} (h : isWordCharacter c = true) :
    Text.isPlainCharacter c = true := by
  have hkinds : (c.isUpper || c.isLower || c.isDigit || c = '_') = true := h
  simp only [Bool.or_eq_true, decide_eq_true_eq] at hkinds
  rw [Text.isPlainCharacter_iff]
  rcases hkinds with ((hupper | hlower) | hdigit) | rfl
  · have hvalue : 65 ≤ c.val ∧ c.val ≤ 90 := of_decide_eq_true hupper
    have hbounds : 65 ≤ c.toNat ∧ c.toNat ≤ 90 := toNat_bounds hvalue.1 hvalue.2
    omega
  · have hvalue := Bool.and_eq_true_iff.mp hlower
    have hbounds : 97 ≤ c.toNat ∧ c.toNat ≤ 122 :=
      toNat_bounds (of_decide_eq_true hvalue.1) (of_decide_eq_true hvalue.2)
    omega
  · have hvalue := Bool.and_eq_true_iff.mp hdigit
    have hbounds : 48 ≤ c.toNat ∧ c.toNat ≤ 57 :=
      toNat_bounds (of_decide_eq_true hvalue.1) (of_decide_eq_true hvalue.2)
    omega
  · decide

namespace Text.IsPlain

variable {text : List Char}

/-- Words are plain. -/
theorem of_isWord (h : IsWord text) : IsPlain text := by
  cases text with
  | nil => exact h.elim
  | cons c rest =>
      refine ⟨List.cons_ne_nil c rest, fun d hmem => isPlainCharacter_of_isWordCharacter ?_⟩
      rcases List.mem_cons.mp hmem with rfl | hmem
      · simp [isWordCharacter, Char.isAlphanum, h.1]
      · exact h.2 d hmem

/-- Digits are plain. -/
theorem of_isDigits (h : IsDigits text) : IsPlain text where
  ne_nil := h.1
  plain := fun c hmem =>
    isPlainCharacter_of_isWordCharacter (by simp [isWordCharacter, Char.isAlphanum, h.2 c hmem])

/-- Two plain texts make one. -/
theorem append {more : List Char} (h : IsPlain text) (hmore : IsPlain more) :
    IsPlain (text ++ more) where
  ne_nil := fun heq => h.ne_nil (List.append_eq_nil_iff.mp heq).1
  plain := fun c hmem => (List.mem_append.mp hmem).elim (h.plain c) (hmore.plain c)

/-- Generated labels are plain. -/
theorem label (base : LabelBase) (place : Nat) : IsPlain (base.label place).toList := by
  have hbase : IsPlain (base.text.toList ++ ['_']) := by
    cases base <;> decide +kernel
  have hplace : IsPlain (Nat.toDigits 10 place) :=
    of_isDigits ⟨Nat.toDigits_ne_nil, fun _ => Nat.isDigit_of_mem_toDigits (by decide) (by decide)⟩
  rw [LabelBase.toList_label, List.append_cons]
  exact hbase.append hplace

end Text.IsPlain

namespace Atom

variable {left right source result target name : String}

@[simp] theorem isPlain_arithmetic {operation : Arithmetic} :
    (arithmetic operation left right result).IsPlain ↔
      Text.IsPlain left.toList ∧ Text.IsPlain right.toList ∧ Text.IsPlain result.toList := by
  simp [IsPlain, fields]

@[simp] theorem isPlain_negate : (negate source result).IsPlain ↔
    Text.IsPlain source.toList ∧ Text.IsPlain result.toList := by
  simp [IsPlain, fields]

@[simp] theorem isPlain_move : (move source result).IsPlain ↔
    Text.IsPlain source.toList ∧ Text.IsPlain result.toList := by
  simp [IsPlain, fields]

/-- A test is plain if its operands and its target are; the code of its comparison always is. -/
@[simp] theorem isPlain_test {comparison : Comparison} :
    (test left right comparison target).IsPlain ↔
      Text.IsPlain left.toList ∧ Text.IsPlain right.toList ∧ Text.IsPlain target.toList := by
  have hcode : Text.IsPlain (toString comparison.code).toList := by
    cases comparison <;> decide +kernel
  simp only [IsPlain, fields, List.forall_mem_cons, hcode, true_and]
  simp

@[simp] theorem isPlain_jump : (jump target).IsPlain ↔ Text.IsPlain target.toList := by
  simp [IsPlain, fields]

@[simp] theorem isPlain_label : (label name).IsPlain ↔ Text.IsPlain name.toList := by
  simp [IsPlain, fields]

end Atom

/-! ## The atoms of a program are plain -/

/-- A condition whose test is plain if its target is. -/
def Condition.IsPlain (condition : Condition) : Prop :=
  ∀ target : String, Text.IsPlain target.toList → (condition.lower target).IsPlain

/-- A statement whose atoms are plain, wherever it is placed. -/
def Statement.IsPlain (statement : Statement) : Prop :=
  ∀ place, ∀ atom ∈ statement.lower place, atom.IsPlain

namespace Statement.IsPlain

variable {first rest body other : Statement} {condition : Condition} {init step : Assignment}

/-- Two statements one after the other are plain if each of them is. -/
theorem seq (hfirst : first.IsPlain) (hrest : rest.IsPlain) : (seq first rest).IsPlain := by
  intro place
  exact List.forall_mem_append.mpr ⟨hfirst place, hrest (place + first.size)⟩

/-- A branch is plain if its condition and its body are, since its label is. -/
theorem ifThen (hcondition : condition.IsPlain) (hbody : body.IsPlain) :
    (ifThen condition body).IsPlain := by
  intro place
  have hafter := Text.IsPlain.label .afterIf place
  have htest := hcondition _ hafter
  simpa [lower, or_imp, forall_and, htest, hafter] using hbody (place + 1)

/-- Two branches are plain if the condition and both bodies are. -/
theorem ifElse (hcondition : condition.IsPlain) (hbody : body.IsPlain) (hother : other.IsPlain) :
    (ifElse condition body other).IsPlain := by
  intro place
  have hafter := Text.IsPlain.label .afterIf place
  have hbefore := Text.IsPlain.label .beforeElse (place + body.size + 2)
  have htest := hcondition _ hbefore
  simpa [lower, or_imp, forall_and, htest, hafter, hbefore] using
    ⟨hbody (place + 1), hother (place + body.size + 2 + 1)⟩

/-- A loop is plain if its condition and its body are. -/
theorem whileLoop (hcondition : condition.IsPlain) (hbody : body.IsPlain) :
    (whileLoop condition body).IsPlain := by
  intro place
  have hbefore := Text.IsPlain.label .beforeWhile place
  have hafter := Text.IsPlain.label .afterWhile place
  have htest := hcondition _ hafter
  simpa [lower, or_imp, forall_and, htest, hbefore, hafter] using hbody (place + 2)

/-- A `for` loop is plain if its three parts and its body are. -/
theorem forLoop (hinit : init.lower.IsPlain) (hcondition : condition.IsPlain)
    (hstep : step.lower.IsPlain) (hbody : body.IsPlain) :
    (forLoop init condition step body).IsPlain := by
  intro place
  have hbefore := Text.IsPlain.label .beforeFor (place + 1)
  have hafter := Text.IsPlain.label .afterFor (place + 1)
  have htest := hcondition _ hafter
  simpa [lower, or_imp, forall_and, hinit, htest, hstep, hbefore, hafter] using hbody (place + 3)

end Statement.IsPlain

namespace Written

variable {tokens : List Token}

/-- An identifier is plain. -/
theorem isPlain_of_identifier {name : String} {rest : List Token}
    (h : AreSpelled (⟨.identifier, name⟩ :: rest)) : Text.IsPlain name.toList :=
  .of_isWord h.head.1

/-- A written literal is plain, with a point or without. -/
theorem Literal.isPlain {text : String} (h : Literal text tokens) (hspelled : AreSpelled tokens) :
    Text.IsPlain text.toList := by
  cases h with
  | integer => exact .of_isDigits hspelled.head
  | double =>
      obtain ⟨whole, fraction, htext, hwhole, hfraction⟩ := hspelled.head
      rw [htext]
      have hpoint : Text.IsPlain ['.'] := by decide
      exact (Text.IsPlain.of_isDigits hwhole).append (hpoint.append (.of_isDigits hfraction))

/-- The operand of a written factor is plain, with a sign or without. -/
theorem Factor.isPlain {factor : AtomCompiler.Factor} (h : Factor factor tokens)
    (hspelled : AreSpelled tokens) : Text.IsPlain factor.operand.toList := by
  cases h with
  | identifier name => exact isPlain_of_identifier hspelled
  | literal hliteral => exact hliteral.isPlain hspelled
  | negative _ hliteral =>
      have hsign : Text.IsPlain "-".toList := by decide
      rw [AtomCompiler.Factor.operand, String.toList_append]
      exact hsign.append (hliteral.isPlain hspelled.right)

/-- A written condition is plain. -/
theorem Condition.isPlain {condition : AtomCompiler.Condition} (h : Condition condition tokens)
    (hspelled : AreSpelled tokens) : condition.IsPlain := by
  cases h with
  | compare hleft _ _ hright =>
      intro target htarget
      exact Atom.isPlain_test.mpr
        ⟨hleft.isPlain hspelled.left, hright.isPlain hspelled.right.right, htarget⟩

/-- The atom of a written update is plain if its target is. -/
theorem Update.isPlain {update : AtomCompiler.Update} (h : Update update tokens)
    (hspelled : AreSpelled tokens) {target : String} (htarget : Text.IsPlain target.toList) :
    (AtomCompiler.Assignment.lower ⟨target, update⟩).IsPlain := by
  have hone : Text.IsPlain "1".toList := by decide
  cases h with
  | increment => exact Atom.isPlain_arithmetic.mpr ⟨htarget, hone, htarget⟩
  | decrement => exact Atom.isPlain_arithmetic.mpr ⟨htarget, hone, htarget⟩
  | set _ hvalue =>
      cases hvalue with
      | negated name _ =>
          exact Atom.isPlain_negate.mpr ⟨isPlain_of_identifier hspelled.right.right, htarget⟩
      | factor hfactor =>
          exact Atom.isPlain_move.mpr ⟨hfactor.isPlain hspelled.right, htarget⟩
      | arithmetic hleft _ _ hright =>
          exact Atom.isPlain_arithmetic.mpr ⟨hleft.isPlain hspelled.right.left,
            hright.isPlain hspelled.right.right.right, htarget⟩

/-- The atom of a written assignment is plain. -/
theorem Assignment.isPlain {assignment : AtomCompiler.Assignment}
    (h : Assignment assignment tokens) (hspelled : AreSpelled tokens) :
    assignment.lower.IsPlain := by
  cases h with
  | untyped name hupdate =>
      exact hupdate.isPlain hspelled.tail (isPlain_of_identifier hspelled)
  | int name _ hupdate =>
      exact hupdate.isPlain hspelled.right.tail (isPlain_of_identifier hspelled.right)
  | double name _ hupdate =>
      exact hupdate.isPlain hspelled.right.tail (isPlain_of_identifier hspelled.right)

/-- A written guard is plain. -/
theorem Guard.isPlain {condition : AtomCompiler.Condition} (h : Guard condition tokens)
    (hspelled : AreSpelled tokens) : condition.IsPlain := by
  cases h with
  | parens _ hcondition _ => exact hcondition.isPlain hspelled.right.left

/-- The written head of a `for` loop is plain in its three parts. -/
theorem ForHead.isPlain {init step : AtomCompiler.Assignment}
    {condition : AtomCompiler.Condition} (h : ForHead init condition step tokens)
    (hspelled : AreSpelled tokens) :
    init.lower.IsPlain ∧ condition.IsPlain ∧ step.lower.IsPlain := by
  cases h with
  | parens _ hinit _ hcondition _ hstep _ =>
      exact ⟨hinit.isPlain hspelled.right.left,
        hcondition.isPlain hspelled.right.right.right.left,
        hstep.isPlain hspelled.right.right.right.right.right.left⟩

mutual

/-- A written statement is plain; by induction over how it is written. -/
theorem Statement.isPlain {statement : AtomCompiler.Statement} {tokens : List Token} :
    Statement statement tokens → AreSpelled tokens → statement.IsPlain
  | .branch hbranch, hspelled => hbranch.isPlain hspelled
  | .whileLoop _ hguard hbody, hspelled =>
    .whileLoop (hguard.isPlain hspelled.right.left) (hbody.isPlain hspelled.right.right)
  | .forLoop _ hhead hbody, hspelled =>
    have hplain := hhead.isPlain hspelled.right.left
    .forLoop hplain.1 hplain.2.1 hplain.2.2 (hbody.isPlain hspelled.right.right)
  | .assign hassignment _, hspelled =>
    fun _ => List.forall_mem_singleton.mpr (hassignment.isPlain hspelled.left)

/-- A written branch is plain. -/
theorem Branch.isPlain {statement : AtomCompiler.Statement} {tokens : List Token} :
    Branch statement tokens → AreSpelled tokens → statement.IsPlain
  | .ifThen _ hguard hbody, hspelled =>
    .ifThen (hguard.isPlain hspelled.right.left) (hbody.isPlain hspelled.right.right)
  | .ifElse _ hguard hbody _ hother, hspelled =>
    .ifElse (hguard.isPlain hspelled.right.left) (hbody.isPlain hspelled.right.right.left)
      (hother.isPlain hspelled.right.right.right.right)
  | .ifElseIf _ hguard hbody _ hother, hspelled =>
    .ifElse (hguard.isPlain hspelled.right.left) (hbody.isPlain hspelled.right.right.left)
      (hother.isPlain hspelled.right.right.right.right)

/-- A written block is plain. -/
theorem Block.isPlain {statement : AtomCompiler.Statement} {tokens : List Token} :
    Block statement tokens → AreSpelled tokens → statement.IsPlain
  | .braces _ hstatements _, hspelled => hstatements.isPlain hspelled.right.left

/-- A written list of statements is plain. -/
theorem Statements.isPlain {statement : AtomCompiler.Statement} {tokens : List Token} :
    Statements statement tokens → AreSpelled tokens → statement.IsPlain
  | .nil, _ => fun _ => List.forall_mem_nil _
  | .cons hfirst hrest, hspelled =>
    .seq (hfirst.isPlain hspelled.left) (hrest.isPlain hspelled.right)

end

end Written

/-- **The fields of a compiled atom are plain.** -/
theorem isPlain_of_compile {text : String} {atoms : List Atom} (h : compile text = .ok atoms) :
    ∀ atom ∈ atoms, atom.IsPlain := by
  obtain ⟨tokens, htokens, hatoms⟩ := tokenize_of_compile h
  obtain ⟨program, hprogram, rfl⟩ := parse_of_compileTokens hatoms
  exact Written.Statements.isPlain (Program.parse_isWritten hprogram)
    (areSpelled_of_tokenize htokens) 0

/-- Compiled atoms have all labels that they jump to, once each. -/
theorem closed_of_compile {text : String} {atoms : List Atom} (h : compile text = .ok atoms) :
    Closed atoms := by
  obtain ⟨tokens, -, hatoms⟩ := tokenize_of_compile h
  obtain ⟨program, -, rfl⟩ := parse_of_compileTokens hatoms
  exact closed_lower program 0

/-- **Compiled atoms are read back,** and so is what is left when some were deleted. -/
theorem Pruned.read_write {text : String} {atoms kept : List Atom} (h : Pruned kept atoms)
    (hcompile : compile text = .ok atoms) : Listing.read (Listing.write kept) = .ok kept :=
  (h.closed (closed_of_compile hcompile)).read_write fun atom hmem =>
    isPlain_of_compile hcompile atom (h.sublist.subset hmem)

/-! ## Texts as bytes -/

/-- The loop that lists bytes puts those from a place on behind those that it has. -/
theorem toList_loop_bytes (bytes : ByteArray) (place : Nat) (before : List UInt8) :
    ByteArray.toList.loop bytes place before = before.reverse ++ bytes.data.toList.drop place := by
  fun_induction ByteArray.toList.loop bytes place before with
  | case1 place before hlt ih =>
      have hplace : place < bytes.data.toList.length := by simpa using hlt
      have hbyte : bytes.get! place = bytes.data.toList[place] := by
        simp only [ByteArray.get!, Array.getElem_toList]
        exact getElem!_pos bytes.data place hplace
      rw [ih, List.drop_eq_getElem_cons hplace, hbyte]
      simp
  | case2 place before hge =>
      have hplace : bytes.data.toList.length ≤ place := by simpa using hge
      rw [List.drop_eq_nil_of_le hplace, List.append_nil]

/-- Bytes are made again from their list. -/
theorem mk_toArray_toList (bytes : ByteArray) : ⟨bytes.toList.toArray⟩ = bytes := by
  rw [ByteArray.toList, toList_loop_bytes]
  simp

/-- A text is read back from its bytes. -/
theorem fromUTF8?_toUTF8 (text : String) : String.fromUTF8? text.toUTF8 = some text := by
  simp only [String.fromUTF8?, String.toUTF8_eq_toByteArray, dif_pos text.isValidUTF8]
  rfl

/-! ## Runs -/

/-- A path to which a file can be written.  A lone hyphen stands for standard output. -/
def FileStore.CanCreate {σ : Type} (store : FileStore σ) (files : σ) (path : String) : Prop :=
  path ≠ "-" ∧ ∀ bytes, ∃ after, store.create files path bytes = .ok after

/-- The run ends with messages about the text, and before anything was printed or written. -/
def FileStore.StopsAtSource {σ : Type} (store : FileStore σ) (options : Options) (text : String)
    (files : σ) : Prop :=
  ∃ error, compile text = .error error ∧
    store.run options files =
      { exit := 1, errors := error.diagnostics.render ⟨options.input, text⟩, files }

/-- A path that leads to a file of a directory. -/
def Directory.IsFile (path : String) : Prop :=
  path ≠ "-" ∧ (nameOf? path).isSome

/-- In a directory every file can be written. -/
theorem Directory.IsFile.canCreate {path : String} (h : IsFile path) (directory : Directory) :
    store.CanCreate directory path := by
  obtain ⟨hpath, hname⟩ := h
  obtain ⟨name, hname⟩ := Option.isSome_iff_exists.mp hname
  refine ⟨hpath, fun bytes => ?_⟩
  simp only [store, write, hname]
  exact ⟨_, rfl⟩

namespace Options

/-- The first half of the work: the atoms, written as a listing. -/
def frontHalf (options : Options) (listing : String) : Options :=
  { options with mode := .frontend, output := listing }

/-- The second half: from the atoms of a listing, which are not optimised again. -/
def backHalf (options : Options) (listing : String) : Options :=
  { options with mode := .backend, input := listing, optimized := false }

/-- The atoms that the work goes on with. -/
def kept (options : Options) (atoms : List Atom) : List Atom :=
  if options.optimized then optimize atoms else atoms

variable {options : Options} {text : String} {atoms : List Atom}

/-! ### What is reported -/

/-- Whether or not they are optimised, the atoms that are kept are what is left of the atoms. -/
theorem kept_pruned (options : Options) (atoms : List Atom) :
    Pruned (options.kept atoms) atoms := by
  unfold kept
  split
  · exact optimize_pruned atoms
  · exact Pruned.refl atoms

/-- Work on the bytes of a text is work on the text. -/
theorem report_toUTF8 (h : options.mode ≠ .vm) (text : String) :
    options.report (.ok text.toUTF8) = options.reportText text := by
  simp only [report, if_neg h, fromUTF8?_toUTF8]

/-- **A text that does not compile is reported as such,** whether a listing or an image is
asked for. -/
theorem reportText_of_error (h : options.mode ≠ .backend) {error : SourceError}
    (herror : compile text = .error error) :
    options.reportText text =
      { ending := .failed (error.diagnostics.render ⟨options.input, text⟩) } := by
  have hatoms : options.atoms text = .error (error.diagnostics.render ⟨options.input, text⟩) := by
    unfold Options.atoms
    split
    · contradiction
    · rw [herror]
  rw [reportText, hatoms]

/-- **The first half writes the listing** of a text that compiles. -/
theorem ending_reportText_frontHalf (h : compile text = .ok atoms) {listing : String}
    (hlisting : listing ≠ "-") :
    ((options.frontHalf listing).reportText text).ending =
      .write listing (Listing.write (options.kept atoms)).toUTF8.toList := by
  simp only [reportText, Options.atoms, frontHalf, h, reportListing]
  exact congrArg Report.ending (if_neg hlisting)

/-- **The second half reports what the run at once reports.** -/
theorem report_backHalf (hmode : options.mode = .full) (h : compile text = .ok atoms)
    (path : String) :
    (options.backHalf path).report (.ok (Listing.write (options.kept atoms)).toUTF8) =
      options.reportText text := by
  have hread := (options.kept_pruned atoms).read_write h
  rw [report_toUTF8 (by simp [backHalf])]
  simp only [reportText, Options.atoms, backHalf, hmode, h, hread]
  rfl

/-- A run at once fails, or it ends with the image to be written. -/
theorem ending_reportText (hmode : options.mode = .full) (houtput : options.output ≠ "-")
    (text : String) :
    (∃ message, (options.reportText text).ending = .failed message) ∨
      ∃ bytes, (options.reportText text).ending = .write options.output bytes := by
  simp only [reportText, hmode, reportImage]
  split
  · exact .inl ⟨_, rfl⟩
  · split
    · exact .inl ⟨_, rfl⟩
    · next memory _ =>
        refine .inr ⟨memory.image, ?_⟩
        rw [if_neg houtput]

end Options

/-! ### What is left behind -/

namespace FileStore

variable {σ : Type} {store : FileStore σ} {options : Options} {files : σ} {text : String}
  {atoms : List Atom}

/-- A run whose work fails leaves the files as they were. -/
theorem run_of_failed {report : Report} {message : String}
    (h : options.report (store.read files options.input) = report)
    (hending : report.ending = .failed message) :
    store.run options files =
      { exit := 1, printed := report.printed, errors := message, files } := by
  simp only [run, h, hending]

/-- A run whose work ends with a file to be written writes it. -/
theorem run_of_write {report : Report} {path : String} {bytes : List UInt8}
    (h : options.report (store.read files options.input) = report)
    (hending : report.ending = .write path bytes) (hpath : store.CanCreate files path) :
    (store.run options files).exit = 0 ∧
      store.read (store.run options files).files path = .ok ⟨bytes.toArray⟩ := by
  obtain ⟨after, hcreate⟩ := hpath.2 ⟨bytes.toArray⟩
  simp only [run, h, hending, hcreate]
  exact ⟨trivial, store.read_created hcreate⟩

/-- A run on a text that does not compile ends with messages about the text. -/
theorem run_of_error (hmode : options.mode = .full ∨ options.mode = .frontend)
    (hinput : store.read files options.input = .ok text.toUTF8) {error : SourceError}
    (herror : compile text = .error error) :
    store.run options files =
      { exit := 1, errors := error.diagnostics.render ⟨options.input, text⟩, files } := by
  have hvm : options.mode ≠ .vm := by rcases hmode with h | h <;> simp [h]
  have hbackend : options.mode ≠ .backend := by rcases hmode with h | h <;> simp [h]
  have hreport : options.report (store.read files options.input) =
      { ending := .failed (error.diagnostics.render ⟨options.input, text⟩) } := by
    rw [hinput, Options.report_toUTF8 hvm, Options.reportText_of_error hbackend herror]
  exact run_of_failed hreport rfl

/-- A run at once stops at its source exactly when the text does not compile. -/
theorem stopsAtSource_iff (hmode : options.mode = .full)
    (hinput : store.read files options.input = .ok text.toUTF8) :
    store.StopsAtSource options text files ↔ ∃ error, compile text = .error error := by
  constructor
  · intro hstops
    obtain ⟨error, herror, -⟩ := hstops
    exact ⟨error, herror⟩
  · intro hcompile
    obtain ⟨error, herror⟩ := hcompile
    exact ⟨error, herror, run_of_error (.inl hmode) hinput herror⟩

/-- The first half of a run on a text that compiles leaves the listing. -/
theorem run_frontHalf (hinput : store.read files options.input = .ok text.toUTF8)
    (h : compile text = .ok atoms) {listing : String} (hlisting : store.CanCreate files listing) :
    (store.run (options.frontHalf listing) files).exit = 0 ∧
      store.read (store.run (options.frontHalf listing) files).files listing =
        .ok (Listing.write (options.kept atoms)).toUTF8 := by
  have hreport : (options.frontHalf listing).report (store.read files options.input) =
      (options.frontHalf listing).reportText text := by
    rw [hinput, Options.report_toUTF8 (by simp [Options.frontHalf])]
  have hrun :=
    run_of_write hreport (Options.ending_reportText_frontHalf h hlisting.1) hlisting
  rwa [mk_toArray_toList] at hrun

/-- Two runs with the same report, which is a failure or a file to be written, succeed or
fail together and leave the same file. -/
theorem run_eq_of_report_eq {other : Options} {elsewhere : σ} {report : Report}
    {path : String} (hpath : store.CanCreate files path)
    (hpath' : store.CanCreate elsewhere path)
    (h : options.report (store.read files options.input) = report)
    (hother : other.report (store.read elsewhere other.input) = report)
    (hending : (∃ message, report.ending = .failed message) ∨
      ∃ bytes, report.ending = .write path bytes) :
    ((store.run other elsewhere).exit = 0 ↔ (store.run options files).exit = 0) ∧
      ((store.run options files).exit = 0 → ∃ bytes,
        store.read (store.run options files).files path = .ok bytes ∧
        store.read (store.run other elsewhere).files path = .ok bytes) := by
  obtain ⟨message, hfailed⟩ | ⟨bytes, hwrite⟩ := hending
  · rw [run_of_failed h hfailed, run_of_failed hother hfailed]
    simp
  · obtain ⟨hexit, hread⟩ := run_of_write h hwrite hpath
    obtain ⟨hexit', hread'⟩ := run_of_write hother hwrite hpath'
    exact ⟨iff_of_true hexit' hexit, fun _ => ⟨_, hread, hread'⟩⟩

end FileStore

/-! ## Two halves -/

/-- **Compiling in two halves is compiling at once.**  The atoms of a text are read
back from their listing, optimised or not.  Let files be kept in any way, with a listing
and an output that can be written.  A first half that succeeds leaves a listing from
which, wherever it is taken, the second half succeeds exactly when the run at once does,
and with the same image; and the first half fails exactly when the run at once ends with
messages about the text.  In a directory every file can be written. -/
theorem halves_compile_as_one (text : String) :
    (∀ atoms, compile text = .ok atoms → ∀ kept ∈ [atoms, optimize atoms],
      Listing.read (Listing.write kept) = .ok kept) ∧
    (∀ {σ : Type} (store : FileStore σ) (options : Options) (files : σ) (listing : String),
      options.mode = .full → store.read files options.input = .ok text.toUTF8 →
      store.CanCreate files listing → store.CanCreate files options.output →
      let full := store.run options files
      let front := store.run (options.frontHalf listing) files
      (front.exit = 0 → ∃ written, store.read front.files listing = .ok written ∧
        ∀ (elsewhere : σ) (path : String), store.read elsewhere path = .ok written →
          store.CanCreate elsewhere options.output →
          let back := store.run (options.backHalf path) elsewhere
          (back.exit = 0 ↔ full.exit = 0) ∧
          (full.exit = 0 → ∃ image, store.read full.files options.output = .ok image ∧
            store.read back.files options.output = .ok image)) ∧
      (front.exit ≠ 0 ↔ store.StopsAtSource options text files)) ∧
    ∀ directory path, Directory.IsFile path → Directory.store.CanCreate directory path := by
  refine ⟨?_, ?_, fun directory path hpath => hpath.canCreate directory⟩
  · intro atoms h kept hkept
    rcases List.mem_pair.mp hkept with rfl | rfl
    · exact (Pruned.refl kept).read_write h
    · exact (optimize_pruned atoms).read_write h
  · intro σ store options files listing hmode hinput hlisting houtput full front
    have hstops := FileStore.stopsAtSource_iff hmode hinput
    cases h : compile text with
    | error error =>
        have hfrontend : (options.frontHalf listing).mode = .frontend := rfl
        have hexit : front.exit = 1 :=
          congrArg Outcome.exit (FileStore.run_of_error (.inr hfrontend) hinput h)
        exact ⟨by simp [hexit], iff_of_true (by simp [hexit]) (hstops.mpr ⟨error, h⟩)⟩
    | ok atoms =>
        obtain ⟨hexit, hwritten⟩ := FileStore.run_frontHalf hinput h hlisting
        refine ⟨fun _ => ⟨_, hwritten, fun elsewhere path hpath houtput' => ?_⟩, ?_⟩
        · have hfull : options.report (store.read files options.input) =
              options.reportText text := by
            rw [hinput, Options.report_toUTF8 (by simp [hmode])]
          have hback : (options.backHalf path).report (store.read elsewhere path) =
              options.reportText text := by
            rw [hpath, Options.report_backHalf hmode h]
          exact FileStore.run_eq_of_report_eq houtput houtput' hfull hback
            (Options.ending_reportText hmode houtput.1 text)
        · have hcompiles : ¬∃ error, compile text = .error error := by simp [h]
          exact iff_of_false (fun hne => hne hexit) (mt hstops.mp hcompiles)

/-- A program with a branch that is never taken. -/
def deadBranch : String := "x = 2; if (x == 3) \x7b y = 1; \x7d z = x;"

/-- A directory that holds the program. -/
def workplace : Directory := ⟨[("branch", deadBranch.toUTF8)]⟩

/-- The program is to be compiled with both optimisations. -/
def bothFlags : Options :=
  { input := "branch", output := "image", optimized := true, shortened := true }

/-- The two halves of a program with a dead branch, both in one directory. -/
theorem halves_compile_as_one_deadBranch :
    (∃ atoms, compile deadBranch = .ok atoms ∧ atoms.length = 5 ∧
      Listing.read (Listing.write (optimize atoms)) = .ok (optimize atoms)) ∧
    let full := Directory.store.run bothFlags workplace
    let front := Directory.store.run (bothFlags.frontHalf "listing") workplace
    let back := Directory.store.run (bothFlags.backHalf "listing") front.directory
    full.exit = 0 ∧ front.exit = 0 ∧ back.exit = 0 ∧
      ∃ image, full.directory.read "image" = .ok image ∧
        back.directory.read "image" = .ok image := by
  obtain ⟨hlibrary, hcommand, hdirectory⟩ := halves_compile_as_one deadBranch
  constructor
  · have hcompile : (compile deadBranch).toOption.map List.length = some 5 := by decide +kernel
    obtain ⟨atoms, hatoms, hlength⟩ := Option.map_eq_some_iff.mp hcompile
    have hatoms := eq_ok_of_toOption hatoms
    exact ⟨atoms, hatoms, hlength, hlibrary atoms hatoms (optimize atoms) (by simp)⟩
  · intro full front back
    have hfull : full.exit = 0 := by decide +kernel
    have hfront : front.exit = 0 := by decide +kernel
    have hlisting : Directory.IsFile "listing" := ⟨by decide, by decide +kernel⟩
    have houtput : Directory.IsFile "image" := ⟨by decide, by decide +kernel⟩
    obtain ⟨hhalves, -⟩ := hcommand Directory.store bothFlags workplace "listing" rfl rfl
      (hdirectory _ _ hlisting) (hdirectory _ _ houtput)
    obtain ⟨written, hwritten, hback⟩ := hhalves hfront
    obtain ⟨hexit, himage⟩ :=
      hback front.directory "listing" hwritten (hdirectory _ _ houtput)
    exact ⟨hfull, hfront, hexit.mpr hfull, himage hfull⟩

end AtomCompiler
