import AtomCompiler.Atom.Listing
import Mathlib.Data.List.Basic

/-!
# Listings that read back

A list of atoms is *writable* when its labels are in order and the format can
hold its fields: no field is empty, breaks the line or is cut in two, and no line
ends in a blank.

* `splitFields_intercalate` — fields without a separator are found again;
* `lines_write`, `readLine_describe` — and so are the lines of a listing, and the
  atom on each;
* `Writable.read_write` — a writable list is read back as it was written.
-/

namespace AtomCompiler

/-! ## Plain texts -/

namespace Text

/-- A character from the hyphen to the last letter.  Among these are the letters, the
digits, the underscore, the point and the hyphen, but no comma and no blank. -/
def isPlainCharacter (c : Char) : Bool :=
  '-'.toNat ≤ c.toNat && c.toNat ≤ 'z'.toNat

/-- The plain characters are a range of code points. -/
theorem isPlainCharacter_iff {c : Char} :
    isPlainCharacter c = true ↔ 45 ≤ c.toNat ∧ c.toNat ≤ 122 := by
  simp [isPlainCharacter]

/-- A text of plain characters. -/
structure IsPlain (text : List Char) : Prop where
  ne_nil : text ≠ []
  plain : ∀ c ∈ text, isPlainCharacter c = true

instance (text : List Char) : Decidable (IsPlain text) :=
  decidable_of_iff (text ≠ [] ∧ text.all isPlainCharacter = true)
    ⟨fun h => ⟨h.1, List.all_eq_true.mp h.2⟩, fun h => ⟨h.1, List.all_eq_true.mpr h.2⟩⟩

/-- A plain text has no character that is not plain. -/
theorem IsPlain.not_mem {text : List Char} (h : IsPlain text) {c : Char}
    (hc : isPlainCharacter c = false) : c ∉ text := by
  intro hmem
  rw [h.plain c hmem] at hc
  cases hc

/-- No character of a plain text is a blank. -/
theorem IsPlain.isBlank_eq_false {text : List Char} (h : IsPlain text) {c : Char}
    (hmem : c ∈ text) : isBlank c = false := by
  have hbounds := isPlainCharacter_iff.mp (h.plain c hmem)
  simp [isBlank, blankRanges]
  omega

end Text

/-! ## Names and codes -/

/-- An opcode is found again by its name. -/
theorem Opcode.ofName?_name (opcode : Opcode) : ofName? opcode.name = some opcode := by
  rcases opcode with (_ | _ | _ | _) | _ | _ | _ | _ | _ <;> decide +kernel

/-- A comparison is read back from its code. -/
theorem Comparison.read?_code (comparison : Comparison) :
    read? (toString comparison.code) = some comparison := by
  cases comparison <;> decide +kernel

namespace Listing

/-! ## What a line can hold -/

/-- A text that can stand in a field of a line. -/
structure IsField (text : String) : Prop where
  nonempty : text ≠ ""
  newline : '\n' ∉ text.toList
  separator : ¬[',', ' '] <:+: text.toList

/-- An atom that can stand on a line.  Blanks at the end of a line are lost, so
its last field must not end in one. -/
structure IsWritable (atom : Atom) : Prop where
  fields : ∀ field ∈ atom.fields, IsField field
  last : ∀ field ∈ atom.fields.getLast?, ∀ c ∈ field.toList.getLast?, Text.isBlank c = false

/-- A list of atoms that a listing can hold. -/
structure Writable (atoms : List Atom) : Prop where
  closed : Closed atoms
  lines : ∀ atom ∈ atoms, IsWritable atom

/-- There is no separator in a text without a comma. -/
theorem not_infix_of_comma_not_mem {text : List Char} (h : ',' ∉ text) :
    ¬[',', ' '] <:+: text :=
  fun hinside => h (hinside.subset List.mem_cons_self)

/-- A plain text can stand in a field. -/
theorem isField_of_isPlain {text : String} (h : Text.IsPlain text.toList) : IsField text where
  nonempty := fun heq => h.ne_nil (String.toList_eq_nil_iff.mpr heq)
  newline := h.not_mem (by decide)
  separator := not_infix_of_comma_not_mem (h.not_mem (by decide))

/-! ## Fields -/

theorem splitFields_separator (rest : List Char) :
    splitFields (',' :: ' ' :: rest) = [] :: splitFields rest := by
  rw [splitFields]

/-- A character that begins no separator belongs to the field that follows. -/
theorem splitFields_cons {c : Char} {rest field : List Char} {more : List (List Char)}
    (h : ¬[',', ' '] <+: c :: rest) (hrest : splitFields rest = field :: more) :
    splitFields (c :: rest) = (c :: field) :: more := by
  rw [splitFields, hrest]
  rintro tail rfl rfl
  exact h ⟨tail, rfl⟩

/-- **A text without a separator is one field.** -/
theorem splitFields_field {field : List Char} (h : ¬[',', ' '] <:+: field) :
    splitFields field = [field] := by
  induction field with
  | nil => rfl
  | cons c field ih =>
      have hparts := mt List.infix_cons_iff.mpr h
      exact splitFields_cons (fun hstart => hparts (.inl hstart)) (ih fun hin => hparts (.inr hin))

/-- **A text without a separator is the field in front of the next separator,**
even if it ends in a comma. -/
theorem splitFields_append {field : List Char} (h : ¬[',', ' '] <:+: field) (rest : List Char) :
    splitFields (field ++ ',' :: ' ' :: rest) = field :: splitFields rest := by
  induction field with
  | nil => exact splitFields_separator rest
  | cons c field ih =>
      have hparts := mt List.infix_cons_iff.mpr h
      refine splitFields_cons (fun hstart => ?_) (ih fun hin => hparts (.inr hin))
      cases field with
      | nil => simp at hstart
      | cons d field =>
          apply hparts (.inl _)
          simpa using hstart

/-- **Fields without a separator are found again.** -/
theorem splitFields_intercalate (first : List Char) (rest : List (List Char))
    (h : ∀ field ∈ first :: rest, ¬[',', ' '] <:+: field) :
    splitFields ([',', ' '].intercalate (first :: rest)) = first :: rest := by
  induction rest generalizing first with
  | nil => simpa using splitFields_field (h first List.mem_cons_self)
  | cons second rest ih =>
      rw [List.intercalate_cons_cons, List.append_assoc]
      rw [List.cons_append, List.cons_append, List.nil_append]
      rw [splitFields_append (h first List.mem_cons_self)]
      rw [ih second fun field hmem => h field (List.mem_cons_of_mem first hmem)]

/-! ## Lines -/

/-- A character of joined pieces is in the text between them or in one of them. -/
theorem mem_or_mem_of_mem_intercalate {between : List Char} {pieces : List (List Char)} {c : Char}
    (h : c ∈ between.intercalate pieces) : c ∈ between ∨ ∃ piece ∈ pieces, c ∈ piece := by
  induction pieces with
  | nil => simp at h
  | cons first rest ih =>
      cases rest with
      | nil => exact .inr ⟨first, List.mem_cons_self, by simpa using h⟩
      | cons second rest =>
          rw [List.intercalate_cons_cons, List.mem_append, List.mem_append] at h
          rcases h with (hfirst | hbetween) | hrest
          · exact .inr ⟨first, List.mem_cons_self, hfirst⟩
          · exact .inl hbetween
          · obtain hbetween | ⟨piece, hpiece, hmem⟩ := ih hrest
            · exact .inl hbetween
            · exact .inr ⟨piece, List.mem_cons_of_mem first hpiece, hmem⟩

/-- Joined pieces end in the last of them. -/
theorem suffix_intercalate {between last : List Char} {pieces : List (List Char)}
    (h : last ∈ pieces.getLast?) : last <:+ between.intercalate pieces := by
  induction pieces with
  | nil => cases h
  | cons first rest ih =>
      cases rest with
      | nil =>
          obtain rfl : first = last := by simpa using h
          simp
      | cons second rest =>
          rw [List.intercalate_cons_cons]
          exact (ih h).trans (List.suffix_append _ _)

/-- An atom is its opcode and its fields, with separators between them. -/
theorem toList_describe (atom : Atom) :
    atom.describe.toList =
      [',', ' '].intercalate (atom.opcode.name.toList :: atom.fields.map String.toList) := by
  rw [Atom.describe, String.toList_intercalate, List.map_cons]
  rfl

/-- The names of opcodes have neither newlines nor commas. -/
theorem newline_comma_not_mem_name (opcode : Opcode) :
    '\n' ∉ opcode.name.toList ∧ ',' ∉ opcode.name.toList := by
  rcases opcode with (_ | _ | _ | _) | _ | _ | _ | _ | _ <;> decide +kernel

/-- An atom is read back from its fields. -/
theorem readFields_fields {atom : Atom} (h : "" ∉ atom.fields) (number : Nat) :
    readFields number atom.opcode atom.fields = .ok atom := by
  cases atom with
  | test left right comparison target =>
      simp only [Atom.opcode, Atom.fields, readFields, Comparison.read?_code]
      exact if_neg h
  | arithmetic operation left right result => exact if_neg h
  | negate source result => exact if_neg h
  | move source result => exact if_neg h
  | jump target => exact if_neg h
  | label name => exact if_neg h

namespace IsWritable

variable {atom : Atom}

/-- An atom that can be written takes up one line. -/
theorem newline_not_mem_describe (h : IsWritable atom) : '\n' ∉ atom.describe.toList := by
  intro hmem
  rw [toList_describe] at hmem
  obtain hbetween | ⟨piece, hpiece, hmem⟩ := mem_or_mem_of_mem_intercalate hmem
  · simp at hbetween
  · rcases List.mem_cons.mp hpiece with rfl | hpiece
    · exact (newline_comma_not_mem_name atom.opcode).1 hmem
    · obtain ⟨field, hfield, rfl⟩ := List.mem_map.mp hpiece
      exact (h.fields field hfield).newline hmem

/-- The line of a writable atom does not end in a blank. -/
theorem exists_describe_eq_concat (h : IsWritable atom) :
    ∃ front c, atom.describe.toList = front ++ [c] ∧ Text.isBlank c = false := by
  obtain ⟨field, hfield⟩ : ∃ field, atom.fields.getLast? = some field := by
    cases atom <;> exact ⟨_, rfl⟩
  have hne : field.toList ≠ [] :=
    mt String.toList_eq_nil_iff.mp (h.fields field (List.mem_of_getLast? hfield)).nonempty
  have hlast := h.last field hfield _ (List.getLast?_eq_some_getLast hne)
  have hsuffix : field.toList <:+ atom.describe.toList := by
    rw [toList_describe]
    apply suffix_intercalate
    rw [List.getLast?_cons, List.getLast?_map, hfield]
    rfl
  obtain ⟨front, hfront⟩ := hsuffix
  refine ⟨front ++ field.toList.dropLast, field.toList.getLast hne, ?_, hlast⟩
  rw [← hfront, List.append_assoc, List.dropLast_concat_getLast]

/-- **The line of a writable atom is read as that atom.** -/
theorem readLine_describe (h : IsWritable atom) (number : Nat) :
    readLine number atom.describe.toList = .ok atom := by
  have hpieces : ∀ piece ∈ atom.opcode.name.toList :: atom.fields.map String.toList,
      ¬[',', ' '] <:+: piece := by
    intro piece hpiece
    rcases List.mem_cons.mp hpiece with rfl | hpiece
    · exact not_infix_of_comma_not_mem (newline_comma_not_mem_name atom.opcode).2
    · obtain ⟨field, hfield, rfl⟩ := List.mem_map.mp hpiece
      exact (h.fields field hfield).separator
  have hsplit : (splitFields atom.describe.toList).map String.ofList =
      atom.opcode.name :: atom.fields := by
    rw [toList_describe, splitFields_intercalate _ _ hpieces]
    simp
  simp only [readLine, hsplit, Opcode.ofName?_name]
  exact readFields_fields (fun hmem => (h.fields "" hmem).nonempty rfl) number

end IsWritable

/-! ## Listings -/

/-- A listing has one line for each atom. -/
theorem toList_write (atoms : List Atom) :
    (write atoms).toList = atoms.flatMap fun atom => atom.describe.toList ++ ['\n'] := by
  simp [write, String.toList_join, List.flatMap_map]

/-- **The lines of a listing are those of its atoms.** -/
theorem lines_write {atoms : List Atom} (h : ∀ atom ∈ atoms, IsWritable atom) :
    Text.lines (write atoms).toList = atoms.map fun atom => atom.describe.toList := by
  rw [toList_write]
  induction atoms with
  | nil => rfl
  | cons atom rest ih =>
      have hatom := h atom List.mem_cons_self
      have hreturn : '\r' ∉ atom.describe.toList.getLast? := by
        obtain ⟨front, c, heq, hblank⟩ := hatom.exists_describe_eq_concat
        rw [heq, List.getLast?_concat]
        rintro ⟨⟩
        exact absurd hblank (by decide)
      rw [List.flatMap_cons, List.append_assoc, List.singleton_append, List.map_cons]
      rw [Text.lines_append_newline hatom.newline_not_mem_describe hreturn]
      rw [ih fun other hmem => h other (List.mem_cons_of_mem atom hmem)]

/-- The lines of a listing hold an atom each, and have no blanks to lose. -/
theorem numberedLines_write {atoms : List Atom} (h : ∀ atom ∈ atoms, IsWritable atom) :
    numberedLines (write atoms) =
      (atoms.zipIdx 1).map fun (atom, number) => (number, atom.describe.toList) := by
  rw [numberedLines, lines_write h, List.zipIdx_map, List.filterMap_map, ← List.filterMap_eq_map]
  apply List.filterMap_congr
  rintro ⟨atom, number⟩ hmem
  obtain ⟨front, c, heq, hblank⟩ :=
    (h atom (List.fst_mem_of_mem_zipIdx hmem)).exists_describe_eq_concat
  have htrim : Text.trimRight atom.describe.toList = atom.describe.toList := by
    rw [heq, Text.trimRight_concat hblank]
  have hall : atom.describe.toList.all Text.isBlank = false := by
    rw [heq, List.all_append, List.all_cons, hblank]
    simp
  simp only [Function.comp, Prod.map, id, hall, htrim]
  rfl

/-- A list on which every call succeeds is mapped to the list of the results. -/
theorem mapM_eq_ok {α β ε : Type} {f : α → Except ε β} {g : α → β} {list : List α}
    (h : ∀ a ∈ list, f a = .ok (g a)) : list.mapM f = .ok (list.map g) := by
  induction list with
  | nil => rfl
  | cons a list ih =>
      rw [List.mapM_cons, h a List.mem_cons_self]
      rw [ih fun b hmem => h b (List.mem_cons_of_mem a hmem)]
      rfl

/-- **A writable list is read back as it was written.** -/
theorem Writable.read_write {atoms : List Atom} (h : Writable atoms) :
    read (write atoms) = .ok atoms := by
  have hlabels := checkLabels_eq_ok_iff.mpr h.closed
  rw [read, numberedLines_write h.lines, List.mapM_map, mapM_eq_ok (g := Prod.fst),
    List.zipIdx_map_fst]
  · simp only [bind, Except.bind, hlabels]
  · rintro ⟨atom, number⟩ hmem
    exact (h.lines atom (List.fst_mem_of_mem_zipIdx hmem)).readLine_describe number

/-- A listing is read only if its labels are in order. -/
theorem closed_of_read {text : String} {atoms : List Atom} (h : read text = .ok atoms) :
    Closed atoms := by
  simp only [read, bind, Except.bind] at h
  split at h
  · cases h
  · next found _ =>
      split at h
      · next hlabels =>
          obtain rfl := Except.ok.inj h
          exact checkLabels_eq_ok_iff.mp hlabels
      · cases h

end Listing

/-- An atom whose fields are plain. -/
def Atom.IsPlain (atom : Atom) : Prop :=
  ∀ field ∈ atom.fields, Text.IsPlain field.toList

instance (atom : Atom) : Decidable atom.IsPlain :=
  inferInstanceAs (Decidable (∀ field ∈ atom.fields, Text.IsPlain field.toList))

/-- An atom with plain fields can be written. -/
theorem Atom.IsPlain.isWritable {atom : Atom} (h : atom.IsPlain) : Listing.IsWritable atom where
  fields := fun field hmem => Listing.isField_of_isPlain (h field hmem)
  last := fun field hfield _ hc =>
    (h field (List.mem_of_getLast? hfield)).isBlank_eq_false (List.mem_of_getLast? hc)

/-- **Plain atoms in order are read back as they were written.** -/
theorem Closed.read_write {atoms : List Atom} (h : Closed atoms)
    (hplain : ∀ atom ∈ atoms, atom.IsPlain) : Listing.read (Listing.write atoms) = .ok atoms :=
  Listing.Writable.read_write ⟨h, fun atom hmem => (hplain atom hmem).isWritable⟩

end AtomCompiler
