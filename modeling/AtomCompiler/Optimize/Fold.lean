import AtomCompiler.Optimize.Simulate
import AtomCompiler.Program.Label

/-!
# Branches that are never taken

One walk over the list, from left to right, with the values of variables known
so far.  A test that is known to fail is deleted with everything up to the label
it jumps to; if it is the test of a loop, the label in front of it goes too.  A
loop that is known to be entered is run ahead of time, so that the walk can go
on behind it with the values it leaves.

Where a label is still to come that an earlier test or jump may go to, the atoms
in between may or may not have been run.  The walk remembers such labels as
*pending*, and while there are any it records no assigned value as known.
-/

namespace AtomCompiler

/-- A text cut at its last underscore. -/
def splitLastUnderscore? (text : List Char) : Option (List Char × List Char) :=
  match text.reverse.dropWhile (· != '_') with
  | [] => none
  | _ :: base => some (base.reverse, (text.reverse.takeWhile (· != '_')).reverse)

/-- Whether a label and the target of the test behind it are named as the head
and the end of one loop. -/
def isLoopPair (label target : String) : Bool :=
  match splitLastUnderscore? label.toList, splitLastUnderscore? target.toList with
  | some (base, number), some (_, targetNumber) =>
    (base = LabelBase.beforeWhile.text.toList || base = LabelBase.beforeFor.text.toList)
      && number = targetNumber
  | _, _ => false

/-- Whether a label is the head of a loop, given the atoms after it. -/
def isLoopHead (label : String) : List Atom → Bool
  | .test _ _ _ target :: _ => isLoopPair label target
  | _ => false

/-- The atoms before the first definition of a label, and those after it. -/
def splitAtLabel? (name : String) : List Atom → Option (List Atom × List Atom)
  | [] => none
  | atom :: rest =>
    if atom.label? = some name then some ([], rest)
    else (splitAtLabel? name rest).map fun (body, after) => (atom :: body, after)

/-- The atoms before the last one that may jump to a label. -/
def beforeLastJump (label : String) (atoms : List Atom) : List Atom :=
  (atoms.reverse.dropWhile fun atom => atom.jumpTarget? != some label).tail.reverse

/-- Whether one part of a list may jump to a label in another part. -/
def entersFrom (outside region : List Atom) : Bool :=
  (jumpTargetsOf outside).any fun target => target ∈ labelsOf region

/-- The list is divided at the first label of that name. -/
theorem splitAtLabel?_eq_some {name : String} {atoms body after : List Atom}
    (h : splitAtLabel? name atoms = some (body, after)) :
    atoms = body ++ .label name :: after ∧ name ∉ labelsOf body := by
  induction atoms generalizing body with
  | nil => simp [splitAtLabel?] at h
  | cons atom rest ih =>
      rw [splitAtLabel?] at h
      split at h
      · next hlabel =>
          cases atom <;> simp_all [Atom.label?, labelsOf]
      · next hlabel =>
          obtain ⟨⟨inner, behind⟩, hinner, heq⟩ := Option.map_eq_some_iff.mp h
          obtain ⟨rfl, rfl⟩ := Prod.mk.inj heq
          obtain ⟨hrest, hfree⟩ := ih hinner
          refine ⟨by simp [hrest], ?_⟩
          cases hname : atom.label? with
          | none => simpa [labelsOf, hname] using hfree
          | some other =>
              simp only [labelsOf, List.filterMap_cons, hname, List.mem_cons, not_or]
              exact ⟨fun heq => hlabel (heq ▸ hname), hfree⟩

/-- What the walk knows at the atom it has come to. -/
structure Walk where
  /-- The known values. -/
  values : Values := {}
  /-- Labels still to come that an atom already walked over may go to. -/
  pending : List String := []
  /-- Labels already walked over; a jump to one of them goes back. -/
  seen : List String := []

namespace Walk

/-- Whether no label is pending, so that what was walked over has been run. -/
def certain (walk : Walk) : Bool := walk.pending.isEmpty

/-- Past a label.  Where it is the target of a later jump without being the head
of a regular loop, what is assigned up to that jump is unknown. -/
def passLabel (walk : Walk) (name : String) (rest : List Atom) : Walk :=
  { values :=
      if isLoopHead name rest then walk.values
      else walk.values.forget (assignedOf (beforeLastJump name rest))
    pending := walk.pending.filter (· ≠ name)
    seen := walk.seen.insert name }

/-- Past a jump. -/
def passJump (walk : Walk) (target : String) : Walk :=
  if target ∈ walk.seen then walk else { walk with pending := walk.pending.insert target }

/-- Past an atom that assigns a variable. -/
def passAssignment (walk : Walk) (atom : Atom) (name : String) : Walk :=
  { walk with
    values := walk.values.set name (if walk.certain then walk.values.assigned? atom else none) }

/-- Into the body of a test that may fail. -/
def enter (walk : Walk) (body : List Atom) (target : String) : Walk :=
  { walk with
    values := walk.values.forget (assignedOf body)
    pending := walk.pending.insert target }

/-- Past a loop that was run ahead of time. -/
def passLoop (walk : Walk) (values : Values) (target : String) : Walk :=
  { walk with values, seen := walk.seen.insert target }

end Walk

/-- A test with the atoms up to the label it jumps to, and what stands around
them.  Atoms before the test are kept last first. -/
structure Branch where
  left : String
  right : String
  comparison : Comparison
  target : String
  /-- The label in front of the test, if the test heads a loop. -/
  head : Option String
  /-- The atoms before the test, and before the label in front of it. -/
  earlier : List Atom
  /-- The atoms between the test and its label. -/
  body : List Atom
  /-- The atoms after the label. -/
  after : List Atom

namespace Branch

/-- The test itself. -/
def test (branch : Branch) : Atom :=
  .test branch.left branch.right branch.comparison branch.target

/-- Everything from the test, or the label in front of it, to the label it jumps
to. -/
def region (branch : Branch) : List Atom :=
  (branch.head.map Atom.label).toList ++ branch.test :: branch.body ++ [.label branch.target]

/-- Whether an atom outside the region may jump into it. -/
def isEnteredElsewhere (branch : Branch) : Bool :=
  entersFrom (branch.earlier ++ branch.after) branch.region

/-- The branch of a test, if its label stands ahead.  A label right before the
test that is named as the head of the test's loop belongs to the branch. -/
def of? (walked : List Atom) (left right : String) (comparison : Comparison) (target : String)
    (rest : List Atom) : Option Branch :=
  (splitAtLabel? target rest).map fun (body, after) =>
    match walked with
    | .label name :: earlier =>
      if isLoopPair name target then
        { left, right, comparison, target, head := some name, earlier, body, after }
      else { left, right, comparison, target, head := none, earlier := walked, body, after }
    | _ => { left, right, comparison, target, head := none, earlier := walked, body, after }

/-- Less is left behind a branch than was ahead of its test. -/
theorem length_after_lt {walked rest : List Atom} {left right : String}
    {comparison : Comparison} {target : String} {branch : Branch}
    (h : of? walked left right comparison target rest = some branch) :
    branch.after.length < rest.length := by
  obtain ⟨⟨body, after⟩, hsplit, rfl⟩ := Option.map_eq_some_iff.mp h
  have hlt : after.length < rest.length := by
    have := congrArg List.length (splitAtLabel?_eq_some hsplit).1
    simp only [List.length_append, List.length_cons] at this
    omega
  dsimp only
  split
  · split
    · exact hlt
    · exact hlt
  · exact hlt

end Branch

/-- How far the walk over a list has come: what it knows, the atoms that were
walked over and kept, last first, and the atoms still ahead. -/
structure Folding where
  walk : Walk
  walked : List Atom
  ahead : List Atom

namespace Folding

/-- Past a test, into a body that may or may not be run. -/
def uncertain (walk : Walk) (branch : Branch) (walked rest : List Atom) : Folding :=
  ⟨walk.enter branch.body branch.target, branch.test :: walked, rest⟩

/-- Past a test whose outcome is known or not.

If it is known to fail, and nothing else jumps into the region up to its label,
the region is deleted.  If it is known to hold and heads no loop, the walk just
goes on.  If it heads a loop that can be run ahead of time, the walk goes on
behind the loop.  In all other cases the body may or may not be run. -/
def passTest (walk : Walk) (branch : Branch) (walked rest : List Atom) : Folding :=
  match walk.values.outcome? branch.left branch.comparison branch.right with
  | some false =>
    if branch.isEnteredElsewhere then uncertain walk branch walked rest
    else ⟨walk, branch.earlier, branch.after⟩
  | some true =>
    if branch.head.isNone then ⟨walk, branch.test :: walked, rest⟩
    else if walk.certain then
      match walk.values.simulate? branch.region with
      | some values =>
        ⟨walk.passLoop values branch.target, branch.region.reverse ++ branch.earlier, branch.after⟩
      | none => uncertain walk branch walked rest
    else uncertain walk branch walked rest
  | none => uncertain walk branch walked rest

/-- The walk after it has dealt with the atom it had come to. -/
def step (walk : Walk) (walked : List Atom) (atom : Atom) (rest : List Atom) : Folding :=
  match atom with
  | .label name => ⟨walk.passLabel name rest, atom :: walked, rest⟩
  | .jump target => ⟨walk.passJump target, atom :: walked, rest⟩
  | .test left right comparison target =>
    match Branch.of? walked left right comparison target rest with
    | some branch => passTest walk branch walked rest
    | none => ⟨walk, atom :: walked, rest⟩
  | .arithmetic _ _ _ result => ⟨walk.passAssignment atom result, atom :: walked, rest⟩
  | .negate _ result => ⟨walk.passAssignment atom result, atom :: walked, rest⟩
  | .move _ result => ⟨walk.passAssignment atom result, atom :: walked, rest⟩

/-- Passing a test never puts more ahead than there was, whether the branch is deleted, kept or
left open. -/
theorem length_ahead_passTest {walk : Walk} {branch : Branch} {walked rest : List Atom}
    (h : branch.after.length < rest.length) :
    (passTest walk branch walked rest).ahead.length ≤ rest.length := by
  have hle := Nat.le_of_lt h
  unfold passTest
  split
  · split
    · exact Nat.le_refl _
    · exact hle
  · split
    · exact Nat.le_refl _
    · split
      · split
        · exact hle
        · exact Nat.le_refl _
      · exact Nat.le_refl _
  · exact Nat.le_refl _

/-- Every step leaves the atom it dealt with behind. -/
theorem length_ahead_step (walk : Walk) (walked : List Atom) (atom : Atom) (rest : List Atom) :
    (step walk walked atom rest).ahead.length ≤ rest.length := by
  cases atom with
  | test left right comparison target =>
      simp only [step]
      split
      · next branch h => exact length_ahead_passTest (Branch.length_after_lt h)
      · exact Nat.le_refl _
  | _ => exact Nat.le_refl _

/-- Walks to the end of the list; the atoms that were kept. -/
def finish (walk : Walk) (walked : List Atom) : List Atom → List Atom
  | [] => walked.reverse
  | atom :: rest =>
    let next := step walk walked atom rest
    finish next.walk next.walked next.ahead
termination_by ahead => ahead.length
decreasing_by exact Nat.lt_succ_of_le (length_ahead_step walk walked atom rest)

end Folding

/-- Deletes the branches and loops that are known never to be entered. -/
def foldBranches (atoms : List Atom) : List Atom :=
  Folding.finish {} [] atoms

end AtomCompiler
