import AtomCompiler.Proofs.GeneratedLabels
import AtomCompiler.Proofs.Lexemes
import AtomCompiler.Proofs.Parsing

/-!
# The meaning of compiled programs

The atoms of a program text do what the program says.  The parser reads off the
program that the tokens are written for, the scanner keeps names and numbers
apart, and lowering lays the program out with labels that are all different.

* `isLegible_of_parse` — the texts of a scanned program are read as they were
  meant;
* `terminates_atoms_iff`, `runsForever_atoms_iff` — the run of the atoms is the
  run of the program;
* `compileTokens_runs_as_written` — and the program is the one that the tokens
  were written for.
-/

namespace AtomCompiler

/-! ## Scanned programs are legible -/

/-- Every token is spelled as its class asks. -/
def AreSpelled (tokens : List Token) : Prop :=
  ∀ token ∈ tokens, token.kind.Spells token.lexeme.toList

namespace AreSpelled

variable {first second : List Token}

theorem left (h : AreSpelled (first ++ second)) : AreSpelled first :=
  fun token hmem => h token (List.mem_append_left second hmem)

theorem right (h : AreSpelled (first ++ second)) : AreSpelled second :=
  fun token hmem => h token (List.mem_append_right first hmem)

theorem head {token : Token} (h : AreSpelled (token :: second)) :
    token.kind.Spells token.lexeme.toList :=
  h token List.mem_cons_self

theorem tail {token : Token} (h : AreSpelled (token :: second)) : AreSpelled second :=
  fun other hmem => h other (List.mem_cons_of_mem token hmem)

end AreSpelled

namespace Written

variable {tokens : List Token}

/-- An identifier is no literal, since it begins with a letter. -/
theorem not_isLiteral_of_identifier {name : String} {rest : List Token}
    (h : AreSpelled (⟨.identifier, name⟩ :: rest)) : isLiteral name = false :=
  isLiteral_of_isWord h.head.1

/-- A written literal is one for the atoms, with a sign in front or without. -/
theorem Literal.isLiteral_text {text : String} (h : Literal text tokens)
    (hspelled : AreSpelled tokens) :
    isLiteral text = true ∧ isLiteral ("-" ++ text) = true := by
  cases h with
  | integer => exact isLiteral_of_number hspelled.head (Or.inl rfl)
  | double => exact isLiteral_of_number hspelled.head (Or.inr rfl)

/-- A written factor is legible: its operand is a literal exactly if it was written as one. -/
theorem Factor.isLegible {factor : AtomCompiler.Factor} (h : Factor factor tokens)
    (hspelled : AreSpelled tokens) : factor.IsLegible := by
  cases h with
  | identifier name => exact not_isLiteral_of_identifier hspelled
  | literal hliteral => exact (hliteral.isLiteral_text hspelled).1
  | negative _ hliteral => exact (hliteral.isLiteral_text hspelled.right).2

/-- A written condition is legible. -/
theorem Condition.isLegible {condition : AtomCompiler.Condition} (h : Condition condition tokens)
    (hspelled : AreSpelled tokens) : condition.IsLegible := by
  cases h with
  | compare hleft _ _ hright =>
      exact ⟨hleft.isLegible hspelled.left, hright.isLegible hspelled.right.right⟩

/-- A written expression is legible. -/
theorem Expression.isLegible {value : AtomCompiler.Expression} (h : Expression value tokens)
    (hspelled : AreSpelled tokens) : value.IsLegible := by
  cases h with
  | negated name _ => exact not_isLiteral_of_identifier hspelled.right
  | factor hfactor => exact hfactor.isLegible hspelled
  | arithmetic hleft _ _ hright =>
      exact ⟨hleft.isLegible hspelled.left, hright.isLegible hspelled.right.right⟩

/-- A written update is legible. -/
theorem Update.isLegible {update : AtomCompiler.Update} (h : Update update tokens)
    (hspelled : AreSpelled tokens) : update.IsLegible := by
  cases h with
  | increment => trivial
  | decrement => trivial
  | set _ hvalue => exact hvalue.isLegible hspelled.right

/-- A written assignment is legible, with a type or without. -/
theorem Assignment.isLegible {assignment : AtomCompiler.Assignment}
    (h : Assignment assignment tokens) (hspelled : AreSpelled tokens) :
    assignment.IsLegible := by
  cases h with
  | untyped name hupdate =>
      exact ⟨not_isLiteral_of_identifier hspelled, hupdate.isLegible hspelled.tail⟩
  | int name _ hupdate =>
      exact ⟨not_isLiteral_of_identifier hspelled.right, hupdate.isLegible hspelled.right.tail⟩
  | double name _ hupdate =>
      exact ⟨not_isLiteral_of_identifier hspelled.right, hupdate.isLegible hspelled.right.tail⟩

/-- A written guard is legible. -/
theorem Guard.isLegible {condition : AtomCompiler.Condition} (h : Guard condition tokens)
    (hspelled : AreSpelled tokens) : condition.IsLegible := by
  cases h with
  | parens _ hcondition _ => exact hcondition.isLegible hspelled.right.left

/-- The written head of a `for` loop is legible in its three parts. -/
theorem ForHead.isLegible {init step : AtomCompiler.Assignment}
    {condition : AtomCompiler.Condition} (h : ForHead init condition step tokens)
    (hspelled : AreSpelled tokens) :
    init.IsLegible ∧ condition.IsLegible ∧ step.IsLegible := by
  cases h with
  | parens _ hinit _ hcondition _ hstep _ =>
      exact ⟨hinit.isLegible hspelled.right.left,
        hcondition.isLegible hspelled.right.right.right.left,
        hstep.isLegible hspelled.right.right.right.right.right.left⟩

mutual

/-- A written statement is legible; by induction over how it is written. -/
theorem Statement.isLegible {statement : AtomCompiler.Statement} {tokens : List Token} :
    Statement statement tokens → AreSpelled tokens → statement.IsLegible
  | .branch hbranch, hspelled => hbranch.isLegible hspelled
  | .whileLoop _ hguard hbody, hspelled =>
    ⟨hguard.isLegible hspelled.right.left, hbody.isLegible hspelled.right.right⟩
  | .forLoop _ hhead hbody, hspelled =>
    have hlegible := hhead.isLegible hspelled.right.left
    ⟨hlegible.1, hlegible.2.1, hlegible.2.2, hbody.isLegible hspelled.right.right⟩
  | .assign hassignment _, hspelled => hassignment.isLegible hspelled.left

/-- A written branch is legible. -/
theorem Branch.isLegible {statement : AtomCompiler.Statement} {tokens : List Token} :
    Branch statement tokens → AreSpelled tokens → statement.IsLegible
  | .ifThen _ hguard hbody, hspelled =>
    ⟨hguard.isLegible hspelled.right.left, hbody.isLegible hspelled.right.right⟩
  | .ifElse _ hguard hbody _ hother, hspelled =>
    ⟨hguard.isLegible hspelled.right.left, hbody.isLegible hspelled.right.right.left,
      hother.isLegible hspelled.right.right.right.right⟩
  | .ifElseIf _ hguard hbody _ hother, hspelled =>
    ⟨hguard.isLegible hspelled.right.left, hbody.isLegible hspelled.right.right.left,
      hother.isLegible hspelled.right.right.right.right⟩

/-- A written block is legible. -/
theorem Block.isLegible {statement : AtomCompiler.Statement} {tokens : List Token} :
    Block statement tokens → AreSpelled tokens → statement.IsLegible
  | .braces _ hstatements _, hspelled => hstatements.isLegible hspelled.right.left

/-- A written list of statements is legible. -/
theorem Statements.isLegible {statement : AtomCompiler.Statement} {tokens : List Token} :
    Statements statement tokens → AreSpelled tokens → statement.IsLegible
  | .nil, _ => trivial
  | .cons hfirst hrest, hspelled =>
    ⟨hfirst.isLegible hspelled.left, hrest.isLegible hspelled.right⟩

end

end Written

/-- The tokens of a text are spelled by their lexemes. -/
theorem areSpelled_of_tokenize {text : String} {tokens : List (Located Token)}
    (h : tokenize text = .ok tokens) : AreSpelled (tokens.map Located.value) := by
  intro token hmem
  obtain ⟨located, hlocated, rfl⟩ := List.mem_map.mp hmem
  exact tokenize_spells h located hlocated

/-- **A program that was scanned and parsed is legible.** -/
theorem isLegible_of_parse {text : String} {tokens : List (Located Token)} {program : Statement}
    (htokens : tokenize text = .ok tokens) (hprogram : Program.parse tokens = .ok program) :
    program.IsLegible :=
  Written.Statements.isLegible (Program.parse_isWritten hprogram) (areSpelled_of_tokenize htokens)

/-! ## Runs -/

/-- What compiles was scanned. -/
theorem tokenize_of_compile {text : String} {atoms : List Atom} (h : compile text = .ok atoms) :
    ∃ tokens, tokenize text = .ok tokens ∧ compileTokens tokens = .ok atoms := by
  unfold compile at h
  split at h
  · next tokens htokens => exact ⟨tokens, htokens, h⟩
  · cases h

/-- **The atoms of a legible program end where the program does.** -/
theorem terminates_atoms_iff {convention : Convention} {program : Statement}
    (h : program.IsLegible) {start finish : Store} :
    Terminates convention program.atoms start finish ↔
      Executes convention program start finish :=
  (layout_lower h 0).terminates_iff (nodup_labelsOf_lower program 0)

/-- **The atoms of a legible program never end when the program does not.** -/
theorem runsForever_atoms_iff {convention : Convention} {program : Statement}
    (h : program.IsLegible) {start : Store} :
    RunsForever (AtomState.step? convention program.atoms) ⟨0, start⟩ ↔
      Diverges convention program start := by
  have hclosed : Closed program.atoms := closed_lower program 0
  rw [hclosed.runsForever_iff, diverges_iff]
  constructor
  · rintro hnone ⟨finish, hexecutes⟩
    exact hnone ⟨finish, (terminates_atoms_iff h).mpr hexecutes⟩
  · rintro hnone ⟨finish, hterminates⟩
    exact hnone ⟨finish, (terminates_atoms_iff h).mp hterminates⟩

/-- **Compilation preserves meaning.**  Whatever tokens a text was cut into, if
they compile then they are written for a program, and from every store the run
of the atoms and the run of that program end in the same store, or neither
ends. -/
theorem compileTokens_runs_as_written {text : String} {tokens : List (Located Token)}
    {atoms : List Atom} (htokens : tokenize text = .ok tokens)
    (hatoms : compileTokens tokens = .ok atoms) :
    ∃ program, Program.parse tokens = .ok program ∧
      IsWritten program (tokens.map Located.value) ∧
      ∀ convention start,
        (∀ finish, Executes convention program start finish ↔
          Terminates convention atoms start finish) ∧
        (Diverges convention program start ↔
          RunsForever (AtomState.step? convention atoms) ⟨0, start⟩) := by
  obtain ⟨program, hprogram, rfl⟩ := parse_of_compileTokens hatoms
  have hlegible := isLegible_of_parse htokens hprogram
  refine ⟨program, hprogram, Program.parse_isWritten hprogram, ?_⟩
  intro convention start
  exact ⟨fun finish => (terminates_atoms_iff hlegible).symm, (runsForever_atoms_iff hlegible).symm⟩

/-- A loop that counts down is compiled to six atoms that run as it does. -/
theorem compileTokens_runs_as_written_countdown :
    ∃ tokens atoms, tokenize "x = 2; while (x > 0) \x7b x--; \x7d" = .ok tokens ∧
      compileTokens tokens = .ok atoms ∧ atoms.length = 6 ∧
      ∃ program, IsWritten program (tokens.map Located.value) ∧
        ∀ finish, Executes (.floating Neg.neg) program Store.zero finish ↔
          Terminates (.floating Neg.neg) atoms Store.zero finish := by
  have hcompile : compile "x = 2; while (x > 0) \x7b x--; \x7d" =
      .ok [.move "2" "x", .label "before_while_1", .test "x" "0" .greater "after_while_1",
        .arithmetic .subtract "x" "1" "x", .jump "before_while_1", .label "after_while_1"] := by
    apply eq_ok_of_toOption
    decide +kernel
  obtain ⟨tokens, htokens, hatoms⟩ := tokenize_of_compile hcompile
  obtain ⟨program, -, hwritten, hruns⟩ := compileTokens_runs_as_written htokens hatoms
  exact ⟨tokens, _, htokens, hatoms, rfl, program, hwritten, (hruns _ _).1⟩

end AtomCompiler
