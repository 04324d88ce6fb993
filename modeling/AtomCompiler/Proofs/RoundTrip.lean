import AtomCompiler.Proofs.Listings
import AtomCompiler.Proofs.Parsing

/-!
# Listings that were read

Reading accepts only what can be written: the atoms of a listing are a writable list,
however freely the listing was written.  Lines hold no newline, trailing blanks are
taken off before a line is cut, and no field that the cutting leaves holds a separator.
The code of a comparison is read in many spellings and kept in one.

* `Text.newline_not_mem_of_mem_lines`, `Text.isBlank_of_getLast?_trimRight` — what a line
  is like;
* `Listing.intercalate_splitFields`, `Listing.not_infix_of_mem_splitFields` — what its
  fields are like;
* `Listing.isWritable_of_readLine` — the atom on a line is writable;
* `Listing.read_write_iff` — a list is read back exactly if it is writable, and so is
  every list that was read.
-/

namespace AtomCompiler

/-! ## Lines and trailing blanks -/

namespace Text

/-- No line of a text has a newline in it. -/
theorem newline_not_mem_of_mem_lines {text line : List Char} (h : line ∈ lines text) :
    '\n' ∉ line := by
  fun_induction lines text generalizing line with
  | case1 => cases h
  | case2 rest ih =>
      rcases List.mem_cons.mp h with rfl | h
      · simp
      · exact ih h
  | case3 rest ih =>
      rcases List.mem_cons.mp h with rfl | h
      · simp
      · exact ih h
  | case4 c rest hnewline hreturn hnone ih =>
      obtain rfl := List.mem_singleton.mp h
      simpa using Ne.symm hnewline
  | case5 c rest hnewline hreturn first more hlines ih =>
      rw [hlines] at ih
      rcases List.mem_cons.mp h with rfl | h
      · have hfirst := ih List.mem_cons_self
        simpa [hfirst] using Ne.symm hnewline
      · exact ih (List.mem_cons_of_mem first h)

theorem trimRight_prefix (text : List Char) : trimRight text <+: text := by
  rw [trimRight, ← List.reverse_suffix, List.reverse_reverse]
  exact List.dropWhile_suffix isBlank

/-- What is left when the trailing blanks are gone does not end in a blank. -/
theorem isBlank_of_getLast?_trimRight {text : List Char} {c : Char}
    (h : c ∈ (trimRight text).getLast?) : isBlank c = false := by
  rw [trimRight, List.getLast?_reverse] at h
  have hhead := List.head?_dropWhile_not isBlank text.reverse
  rw [h] at hhead
  simpa using hhead

end Text

namespace Listing

/-! ## Fields of a line -/

/-- A line has at least one field. -/
theorem splitFields_ne_nil (text : List Char) : splitFields text ≠ [] := by
  unfold splitFields
  split
  · simp
  · simp
  · split <;> simp

/-- **Cutting loses nothing but the separators.** -/
theorem intercalate_splitFields (text : List Char) :
    [',', ' '].intercalate (splitFields text) = text := by
  fun_induction splitFields text with
  | case1 => rfl
  | case2 rest ih =>
      obtain ⟨field, more, hfields⟩ := List.exists_cons_of_ne_nil (splitFields_ne_nil rest)
      rw [hfields] at ih ⊢
      rw [List.intercalate_cons_cons, ih]
      rfl
  | case3 c rest _ hnone _ => exact absurd hnone (splitFields_ne_nil rest)
  | case4 c rest _ field more hfields ih =>
      rw [hfields] at ih
      rw [← ih]
      cases more with
      | nil => simp
      | cons second more => simp [List.intercalate_cons_cons]

/-- Joined pieces begin with the first of them. -/
theorem prefix_intercalate (between first : List Char) (rest : List (List Char)) :
    first <+: between.intercalate (first :: rest) := by
  cases rest with
  | nil => simp
  | cons second rest =>
      rw [List.intercalate_cons_cons, List.append_assoc]
      exact List.prefix_append _ _

/-- **No field holds a separator.** -/
theorem not_infix_of_mem_splitFields {text field : List Char} (h : field ∈ splitFields text) :
    ¬[',', ' '] <:+: field := by
  fun_induction splitFields text generalizing field with
  | case1 =>
      obtain rfl := List.mem_singleton.mp h
      simp
  | case2 rest ih =>
      rcases List.mem_cons.mp h with rfl | h
      · simp
      · exact ih h
  | case3 c rest _ hnone _ => exact absurd hnone (splitFields_ne_nil rest)
  | case4 c rest hseparator first more hfields ih =>
      rcases List.mem_cons.mp h with rfl | h
      · intro hinside
        rcases List.infix_cons_iff.mp hinside with hstart | hinside
        · -- the first field begins the rest, so the separator would stand in the text
          obtain ⟨rfl, hblank⟩ := List.cons_prefix_cons.mp hstart
          have hfirst : first <+: rest := by
            have hprefix := prefix_intercalate [',', ' '] first more
            rwa [← hfields, intercalate_splitFields] at hprefix
          obtain ⟨tail, htail⟩ := hblank.trans hfirst
          exact hseparator tail rfl htail.symm
        · exact ih (hfields ▸ List.mem_cons_self) hinside
      · exact ih (hfields ▸ List.mem_cons_of_mem first h)

/-- Each of joined pieces is a part of the whole. -/
theorem infix_intercalate {between piece : List Char} {pieces : List (List Char)}
    (h : piece ∈ pieces) : piece <:+: between.intercalate pieces := by
  induction pieces with
  | nil => cases h
  | cons first rest ih =>
      rcases List.mem_cons.mp h with rfl | h
      · exact (prefix_intercalate between piece rest).isInfix
      · cases rest with
        | nil => cases h
        | cons second rest =>
            rw [List.intercalate_cons_cons]
            exact (ih h).trans (List.suffix_append _ _).isInfix

/-! ## The atom on a line -/

/-- The code of a comparison can stand in a field. -/
theorem isField_code (comparison : Comparison) : IsField (toString comparison.code) := by
  apply isField_of_isPlain
  cases comparison <;> decide +kernel

/-- An atom is read only if none of its fields is empty. -/
theorem filled_eq_ok {number : Nat} {fields : List String} {atom found : Atom}
    (h : filled number fields atom = .ok found) : "" ∉ fields ∧ found = atom := by
  unfold filled at h
  split at h
  · cases h
  · next hnot => exact ⟨hnot, (Except.ok.inj h).symm⟩

/-- An atom has the fields that it was read from, except that a comparison has a code of
its own. -/
theorem readFields_eq_ok {number : Nat} {opcode : Opcode} {fields : List String} {atom : Atom}
    (h : readFields number opcode fields = .ok atom) :
    "" ∉ fields ∧ atom.fields.getLast? = fields.getLast? ∧
      ∀ field ∈ atom.fields,
        field ∈ fields ∨ ∃ comparison : Comparison, field = toString comparison.code := by
  unfold readFields at h
  split at h
  case h_4 left right code target =>
    split at h
    · next comparison _ =>
        obtain ⟨hnot, rfl⟩ := filled_eq_ok h
        refine ⟨hnot, rfl, fun field hfield => ?_⟩
        simp only [Atom.fields, List.mem_cons, List.not_mem_nil, or_false] at hfield ⊢
        obtain hleft | hright | hcode | htarget := hfield
        · exact .inl (.inl hleft)
        · exact .inl (.inr (.inl hright))
        · exact .inr ⟨comparison, hcode⟩
        · exact .inl (.inr (.inr (.inr htarget)))
    · split at h <;> cases h
  case h_7 => cases h
  all_goals
    obtain ⟨hnot, rfl⟩ := filled_eq_ok h
    exact ⟨hnot, rfl, fun field hfield => .inl hfield⟩

/-- **The atom on a line is writable,** if the line is one and does not end in a blank. -/
theorem isWritable_of_readLine {number : Nat} {text : List Char} {atom : Atom}
    (hnewline : '\n' ∉ text) (hend : ∀ c ∈ text.getLast?, Text.isBlank c = false)
    (h : readLine number text = .ok atom) : IsWritable atom := by
  obtain ⟨name, pieces, hpieces⟩ := List.exists_cons_of_ne_nil (splitFields_ne_nil text)
  have hjoined : [',', ' '].intercalate (name :: pieces) = text := by
    rw [← hpieces, intercalate_splitFields]
  simp only [readLine, hpieces, List.map_cons] at h
  split at h
  · obtain ⟨hnot, hlast, hfields⟩ := readFields_eq_ok h
    constructor
    · intro field hfield
      obtain hfield | ⟨comparison, rfl⟩ := hfields field hfield
      · obtain ⟨piece, hpiece, rfl⟩ := List.mem_map.mp hfield
        have hmem : piece ∈ name :: pieces := List.mem_cons_of_mem name hpiece
        constructor
        · exact fun hempty => hnot (hempty ▸ hfield)
        · rw [String.toList_ofList]
          exact fun hc => hnewline (hjoined ▸ (infix_intercalate hmem).subset hc)
        · rw [String.toList_ofList]
          exact not_infix_of_mem_splitFields (hpieces ▸ hmem)
      · exact isField_code comparison
    · intro field hfield c hc
      rw [hlast, List.getLast?_map] at hfield
      obtain ⟨piece, hpiece, rfl⟩ := Option.map_eq_some_iff.mp hfield
      have hsuffix : piece <:+ [',', ' '].intercalate (name :: pieces) := by
        apply suffix_intercalate
        rw [List.getLast?_cons, hpiece]
        rfl
      obtain ⟨front, hfront⟩ := hsuffix
      rw [String.toList_ofList] at hc
      apply hend c
      rw [← hjoined, ← hfront, List.getLast?_append, hc]
      rfl
  · cases h

/-! ## Whole listings -/

/-- Every result of a list of calls that all succeed is the result of one of them. -/
theorem exists_of_mem_mapM {α β ε : Type} {f : α → Except ε β} {list : List α} {results : List β}
    (h : list.mapM f = .ok results) {result : β} (hresult : result ∈ results) :
    ∃ a ∈ list, f a = .ok result := by
  induction list generalizing results with
  | nil =>
      obtain rfl := Except.ok.inj h
      cases hresult
  | cons a list ih =>
      rw [List.mapM_cons] at h
      obtain ⟨first, hfirst, h⟩ := bind_eq_ok h
      obtain ⟨others, hothers, h⟩ := bind_eq_ok h
      obtain rfl := Except.ok.inj h
      rcases List.mem_cons.mp hresult with rfl | hresult
      · exact ⟨a, List.mem_cons_self, hfirst⟩
      · obtain ⟨b, hb, hfb⟩ := ih hothers hresult
        exact ⟨b, List.mem_cons_of_mem a hb, hfb⟩

/-- A line that holds an atom is one line, and its trailing blanks are gone. -/
theorem of_mem_numberedLines {text : String} {number : Nat} {line : List Char}
    (h : (number, line) ∈ numberedLines text) :
    '\n' ∉ line ∧ ∀ c ∈ line.getLast?, Text.isBlank c = false := by
  obtain ⟨⟨whole, place⟩, hwhole, h⟩ := List.mem_filterMap.mp h
  dsimp only at h
  split at h
  · cases h
  · obtain ⟨rfl, rfl⟩ := Prod.mk.inj (Option.some.inj h)
    have hline := Text.newline_not_mem_of_mem_lines (List.fst_mem_of_mem_zipIdx hwhole)
    exact ⟨fun hc => hline ((Text.trimRight_prefix whole).subset hc),
      fun _ => Text.isBlank_of_getLast?_trimRight⟩

/-- **What was read can be written.** -/
theorem writable_of_read {text : String} {atoms : List Atom} (h : read text = .ok atoms) :
    Writable atoms := by
  refine ⟨closed_of_read h, fun atom hatom => ?_⟩
  obtain ⟨found, hfound, h⟩ := bind_eq_ok h
  split at h
  · obtain rfl := Except.ok.inj h
    obtain ⟨⟨number, line⟩, hline, hread⟩ := exists_of_mem_mapM hfound hatom
    obtain ⟨hnewline, hend⟩ := of_mem_numberedLines hline
    exact isWritable_of_readLine hnewline hend hread
  · cases h

/-- A list can be written if its labels are in order and each of its atoms can be written. -/
theorem writable_iff {atoms : List Atom} :
    Writable atoms ↔ checkLabels atoms = .ok () ∧ ∀ atom ∈ atoms, IsWritable atom := by
  rw [checkLabels_eq_ok_iff]
  exact ⟨fun h => ⟨h.closed, h.lines⟩, fun h => ⟨h.1, h.2⟩⟩

/-- **Listings hold exactly the writable lists.**  A list is read back as it was written
if and only if its labels pass their check and each of its atoms can stand on a line;
and every list that was read is such a list, so that writing and reading it again
changes nothing. -/
theorem read_write_iff (atoms : List Atom) :
    (read (write atoms) = .ok atoms ↔
        checkLabels atoms = .ok () ∧ ∀ atom ∈ atoms, IsWritable atom) ∧
      ∀ text, read text = .ok atoms →
        (checkLabels atoms = .ok () ∧ ∀ atom ∈ atoms, IsWritable atom) ∧
          read (write atoms) = .ok atoms := by
  simp only [← writable_iff]
  refine ⟨⟨writable_of_read, Writable.read_write⟩, fun text h => ?_⟩
  have hwritable := writable_of_read h
  exact ⟨hwritable, hwritable.read_write⟩

/-- A label that begins with a space and ends in a comma, a variable that ends in a carriage
return, and a literal that ends in a comma. -/
def oddFields : List Atom :=
  [.label " a,", .test "x\r" "5," .less " a,"]

/-- The odd fields are read from a listing with names in small letters, a blank line, blanks
at the ends of its lines and a code with a sign, and again from what is written for them. -/
theorem read_write_iff_oddFields :
    read "lbl,  a,\r\n \t\nTst, x\r, 5,, +05,  a,\u3000 \n" = .ok oddFields ∧
      (checkLabels oddFields = .ok () ∧ ∀ atom ∈ oddFields, IsWritable atom) ∧
      read (write oddFields) = .ok oddFields := by
  have hread : read "lbl,  a,\r\n \t\nTst, x\r, 5,, +05,  a,\u3000 \n" = .ok oddFields := by
    apply eq_ok_of_toOption
    decide +kernel
  exact ⟨hread, (read_write_iff oddFields).2 _ hread⟩

end Listing

end AtomCompiler
