import AtomCompiler.Memory.Image
import AtomCompiler.Proofs.Filling
import AtomCompiler.Proofs.WellFormed

/-!
# Images are read back

The image of memory has no header, so that whoever loads it has to know where things
are: the word of an instruction at four times its index, the bytes of a cell at the
address that its text was given.  Here the image is read as the machine does.

* `ofBigEndian`, `readProgram?` — numbers and programs read from bytes;
* `Memory.take_drop_program`, `Memory.take_drop_cell` — where things are in an image;
* `cut_of_emit` — the instructions of an emitted program lose nothing when they are
  encoded;
* `image_reads_back` — what is found in an image.
-/

namespace AtomCompiler

/-- The number that some bytes make up, the most significant first. -/
def ofBigEndian (bytes : List UInt8) : Nat :=
  bytes.foldl (fun number byte => number * 256 + byte.toNat) 0

/-- The number in the word that begins at an offset of an image. -/
def wordAt (image : List UInt8) (offset : Nat) : Nat :=
  ofBigEndian ((image.drop offset).take wordBytes)

/-- The instructions of an image from its first word on, up to the first that halts.
There are none if the image ends before, or if a word on the way is no instruction. -/
def readProgram? : List UInt8 → Option (List Instruction)
  | first :: second :: third :: fourth :: rest => do
    let instruction ← Instruction.ofWord? (ofBigEndian [first, second, third, fourth])
    if instruction.operation = .halt then return [instruction]
    else return instruction :: (← readProgram? rest)
  | _ => none

/-! ## Numbers -/

/-- Bytes are read back up to their width. -/
theorem ofBigEndian_bigEndian (width n : Nat) :
    ofBigEndian (bigEndian width n) = n % 256 ^ width := by
  induction width generalizing n with
  | zero => simp [bigEndian, ofBigEndian, Nat.mod_one]
  | succ width ih =>
      have hbyte : (UInt8.ofNat (n % 256)).toNat = n % 256 := by simp
      have hfront : (bigEndian width (n / 256)).foldl
          (fun number byte => number * 256 + byte.toNat) 0 = n / 256 % 256 ^ width := ih (n / 256)
      rw [bigEndian, ofBigEndian, List.foldl_append, hfront, List.foldl_cons, List.foldl_nil, hbyte,
        Nat.pow_succ', Nat.mod_mul]
      omega

/-- A number that fits is read back. -/
theorem ofBigEndian_of_lt {width n : Nat} (h : n < 256 ^ width) :
    ofBigEndian (bigEndian width n) = n := by
  rw [ofBigEndian_bigEndian, Nat.mod_eq_of_lt h]

/-- A word is read back from its bytes, since it fits into them. -/
theorem ofBigEndian_word (instruction : Instruction) :
    ofBigEndian (bigEndian wordBytes instruction.word) = instruction.word :=
  ofBigEndian_of_lt instruction.word_lt

/-! ## Where things are -/

/-- Pieces of one width are found at multiples of it. -/
theorem take_drop_flatMap {α : Type} {piece : α → List UInt8} {width : Nat}
    (hwidth : ∀ item, (piece item).length = width) {items : List α} {index : Nat} {item : α}
    (h : items[index]? = some item) (rest : List UInt8) :
    ((items.flatMap piece ++ rest).drop (width * index)).take width = piece item := by
  induction items generalizing index with
  | nil => cases h
  | cons first items ih =>
      cases index with
      | zero =>
          obtain rfl : first = item := by simpa using h
          rw [List.flatMap_cons, Nat.mul_zero, List.drop_zero, List.append_assoc,
            List.take_left' (hwidth first)]
      | succ index =>
          rw [List.flatMap_cons, List.append_assoc, Nat.mul_succ, Nat.add_comm, ← List.drop_drop,
            List.drop_left' (hwidth first)]
          exact ih (by simpa using h)

/-- Pieces of one width add up. -/
theorem length_flatMap_of_width {α : Type} {piece : α → List UInt8} {width : Nat}
    (hwidth : ∀ item, (piece item).length = width) (items : List α) :
    (items.flatMap piece).length = width * items.length := by
  induction items with
  | nil => rfl
  | cons first items ih =>
      rw [List.flatMap_cons, List.length_append, hwidth, ih, List.length_cons, Nat.mul_succ,
        Nat.add_comm]

namespace Memory

variable {memory : Memory}

/-- The program takes up all of its room, filled up with zeros. -/
theorem length_programImage (h : memory.program.length ≤ maxWords) :
    memory.programImage.length = programBytes := by
  have hwords := length_flatMap_of_width
    (fun instruction : Instruction => length_bigEndian wordBytes instruction.word) memory.program
  simp only [programImage, List.length_append, List.length_replicate, hwords]
  simp only [maxWords, programBytes, wordBytes] at h ⊢
  omega

/-- The data take up as many bytes as their cells. -/
theorem length_dataImage (memory : Memory) :
    memory.dataImage.length = cellBytes * memory.cells.size := by
  rw [dataImage, length_flatMap_of_width (fun cell => length_bigEndian _ _), Array.length_toList]

/-- The image ends with the last cell. -/
theorem length_image (h : memory.program.length ≤ maxWords) :
    memory.image.length = programBytes + cellBytes * memory.cells.size := by
  rw [image, List.length_append, length_programImage h, length_dataImage]

/-- The word of an instruction is found at four times its index. -/
theorem take_drop_program {index : Nat} {instruction : Instruction}
    (h : memory.program[index]? = some instruction) :
    (memory.image.drop (wordBytes * index)).take wordBytes =
      bigEndian wordBytes instruction.word := by
  rw [image, programImage, List.append_assoc]
  exact take_drop_flatMap (fun instruction => length_bigEndian _ _) h _

/-- The bytes of a cell are found at its address. -/
theorem take_drop_cell (hwords : memory.program.length ≤ maxWords) {slot : Nat} {cell : Cell}
    (h : memory.cells[slot]? = some cell) :
    (memory.image.drop (cellAddress slot)).take cellBytes =
      bigEndian cellBytes (cellWord cell.bits) := by
  have hcell : memory.cells.toList[slot]? = some cell := by simpa using h
  have hfound := take_drop_flatMap
    (fun cell : Cell => length_bigEndian cellBytes (cellWord cell.bits)) hcell []
  rw [List.append_nil] at hfound
  rw [image, cellAddress, ← List.drop_drop, List.drop_left' (length_programImage hwords)]
  exact hfound

/-- The word of an instruction is decoded as the instruction, cut to its widths. -/
theorem ofWord?_wordAt {index : Nat} {instruction : Instruction}
    (h : memory.program[index]? = some instruction) :
    Instruction.ofWord? (wordAt memory.image (wordBytes * index)) = some instruction.cut := by
  rw [wordAt, take_drop_program h, ofBigEndian_word, Instruction.ofWord?_word]

end Memory

/-! ## Reading a program -/

/-- The first instruction of some words is read, and the others only if it does not
halt. -/
theorem readProgram?_word (instruction : Instruction) (rest : List UInt8) :
    readProgram? (bigEndian wordBytes instruction.word ++ rest) =
      if instruction.operation = .halt then some [instruction.cut]
      else (readProgram? rest).map (instruction.cut :: ·) := by
  have hword := ofBigEndian_word instruction
  simp only [wordBytes, bigEndian, List.nil_append, List.cons_append] at hword ⊢
  rw [readProgram?, hword, Instruction.ofWord?_word]
  show (if instruction.operation = .halt then some [instruction.cut]
    else (readProgram? rest).bind fun others => some (instruction.cut :: others)) = _
  rw [Option.map_eq_bind]
  rfl

/-- **A program that halts at its end and nowhere else is read whole,** whatever comes
behind it. -/
theorem readProgram?_flatMap {front : List Instruction} {last : Instruction}
    (hfront : ∀ instruction ∈ front, instruction.operation ≠ .halt)
    (hlast : last.operation = .halt) (rest : List UInt8) :
    readProgram? ((front ++ [last]).flatMap
        (fun instruction => bigEndian wordBytes instruction.word) ++ rest) =
      some ((front ++ [last]).map Instruction.cut) := by
  induction front with
  | nil =>
      rw [List.nil_append, List.flatMap_cons, List.flatMap_nil, List.append_nil,
        readProgram?_word, if_pos hlast]
      rfl
  | cons first front ih =>
      rw [List.cons_append, List.flatMap_cons, List.append_assoc, readProgram?_word,
        if_neg (hfront first List.mem_cons_self),
        ih fun instruction hmem => hfront instruction (List.mem_cons_of_mem first hmem)]
      rfl

/-! ## Emitted programs -/

/-- An instruction whose fields fit loses nothing. -/
theorem Instruction.cut_eq_self {instruction : Instruction}
    (hcomparison : instruction.comparison < 0x10) (hregister : instruction.register < 0x10)
    (haddress : instruction.address < 0x100000) : instruction.cut = instruction := by
  rw [cut, Nat.mod_eq_of_lt hcomparison, Nat.mod_eq_of_lt hregister, Nat.mod_eq_of_lt haddress]

/-- A comparison of a cell in range fits into its word. -/
theorem Instruction.cut_compare (comparison : Comparison) {address : Nat}
    (h : address < 0x100000) : (compare comparison address).cut = compare comparison address := by
  have hcode := comparison.code_lt
  exact cut_eq_self (show comparison.code < 0x10 by omega) (by decide : 0 < 0x10) h

/-- The instructions of an atom fit if the addresses they are given do. -/
theorem Atom.cut_code {atom : Atom} {cellOf goal : String → Nat}
    (hcells : ∀ text ∈ atom.texts, cellOf text < 0x100000)
    (hgoals : ∀ label, Relocations.addressOf (goal label) < 0x100000) :
    ∀ instruction ∈ atom.code cellOf goal, instruction.cut = instruction := by
  have hplain : ∀ (operation : Operation) (address : Nat), address < 0x100000 →
      Instruction.cut { operation, address } = { operation, address } := by
    intro operation address haddress
    exact Instruction.cut_eq_self (by decide : 0 < 0x10) (by decide : 0 < 0x10) haddress
  have hjump : ∀ label, Instruction.cut
      { Instruction.jump with address := Relocations.addressOf (goal label) } =
        { Instruction.jump with address := Relocations.addressOf (goal label) } := by
    intro label
    exact Instruction.cut_eq_self (by decide : 0 < 0x10)
      (by decide : Instruction.programCounter < 0x10) (hgoals label)
  intro instruction hmem
  cases atom with
  | arithmetic operation left right result =>
      simp only [code, List.mem_cons, List.not_mem_nil, or_false] at hmem
      obtain rfl | rfl | rfl := hmem
      · exact hplain _ _ (hcells left (by simp [texts]))
      · exact hplain _ _ (hcells right (by simp [texts]))
      · exact hplain _ _ (hcells result (by simp [texts]))
  | negate source result =>
      simp only [code, List.mem_cons, List.not_mem_nil, or_false] at hmem
      obtain rfl | rfl | rfl := hmem
      · exact hplain _ _ (hcells "0" (by simp [texts]))
      · exact hplain _ _ (hcells source (by simp [texts]))
      · exact hplain _ _ (hcells result (by simp [texts]))
  | move source result =>
      by_cases hzero : source = "0"
      · simp only [code, hzero, if_true, List.mem_cons, List.not_mem_nil, or_false] at hmem
        obtain rfl | rfl := hmem
        · exact hplain _ _ (by decide)
        · exact hplain _ _ (hcells result (by simp [texts, hzero]))
      · simp only [code, hzero, if_false, List.mem_cons, List.not_mem_nil, or_false] at hmem
        obtain rfl | rfl := hmem
        · exact hplain _ _ (hcells source (by simp [texts, hzero]))
        · exact hplain _ _ (hcells result (by simp [texts, hzero]))
  | test left right comparison target =>
      cases hopposite : comparison.opposite? with
      | none => simp [code, hopposite] at hmem
      | some opposite =>
          simp only [code, hopposite, List.mem_cons, List.not_mem_nil, or_false] at hmem
          obtain rfl | rfl | rfl := hmem
          · exact hplain _ _ (hcells left (by simp [texts]))
          · exact Instruction.cut_compare _ (hcells right (by simp [texts]))
          · exact hjump target
  | jump target =>
      simp only [code, List.mem_cons, List.not_mem_nil, or_false] at hmem
      obtain rfl | rfl := hmem
      · exact Instruction.cut_compare _ (hcells "0" (by simp [texts]))
      · exact hjump target
  | label name => cases hmem

/-- A jump that is redirected goes back, if anywhere. -/
theorem Instruction.cut_redirect {mask : List Bool} {instruction : Instruction}
    (h : instruction.cut = instruction) :
    (instruction.redirect mask).cut = instruction.redirect mask := by
  by_cases hjump : instruction.operation = .jump
  · obtain ⟨operation, comparison, register, address⟩ := instruction
    have hfields : comparison % 0x10 = comparison ∧ register % 0x10 = register ∧
        address % 0x100000 = address := by
      simpa [cut] using h
    obtain ⟨hcomparison, hregister, haddress⟩ := hfields
    have hmoved := moved_le mask (address / wordBytes)
    rw [redirect, if_pos hjump]
    refine cut_eq_self (by dsimp only; omega) (by dsimp only; omega) ?_
    dsimp only
    rw [Relocations.addressOf_of_lt (by simp only [wordBytes] at hmoved ⊢; omega)]
    simp only [wordBytes] at hmoved ⊢
    omega
  · rw [redirect_of_ne hjump, h]

/-- The instructions of the whole program fit. -/
theorem Emitted.cut_eq {atoms : List Atom} {memory : Memory} (h : Emitted atoms memory)
    (hindexed : memory.Indexed) : ∀ instruction ∈ memory.program, instruction.cut = instruction := by
  have hcells : ∀ atom ∈ atoms, ∀ text ∈ atom.texts, memory.cellOf text < 0x100000 := by
    intro atom hatom text htext
    obtain ⟨slot, hslot⟩ := Option.isSome_iff_exists.mp (h.slotted atom hatom text htext)
    obtain ⟨bits, hbits⟩ := (hindexed.slots text slot).mp hslot
    obtain ⟨hlt, -⟩ := Array.getElem?_eq_some_iff.mp hbits
    have hle := cellAddress_le_iff.mpr (Nat.lt_of_lt_of_le hlt hindexed.size)
    rw [Memory.cellOf_eq hslot]
    simp only [maxAddress] at hle
    omega
  have hgoals : ∀ label, Relocations.addressOf (goalIn atoms label) < 0x100000 := by
    intro label
    have hlt := h.goalIn_lt label
    simp only [programBytes, wordBytes] at hlt
    rw [Relocations.addressOf_of_lt (by omega)]
    simp only [wordBytes]
    omega
  intro instruction hmem
  rw [h.program, List.mem_append] at hmem
  obtain hmem | hmem := hmem
  · obtain ⟨atom, hatom, hcode⟩ := List.mem_flatMap.mp hmem
    exact Atom.cut_code (hcells atom hatom) hgoals instruction hcode
  · obtain rfl := List.mem_singleton.mp hmem
    rfl

/-- What is kept was there before. -/
theorem mem_of_mem_keep {mask : List Bool} {program : List Instruction} {instruction : Instruction}
    (h : instruction ∈ keep mask program) : instruction ∈ program := by
  obtain ⟨place, hplace⟩ := List.mem_iff_getElem?.mp h
  obtain ⟨index, -, hindex⟩ := exists_keptAt hplace
  exact List.mem_of_getElem? hindex

/-- **The instructions of an emitted program fit into their words.** -/
theorem cut_of_emit {atoms : List Atom} {shortened : Bool} {memory : Memory}
    (h : emit atoms shortened = .ok memory) :
    ∀ instruction ∈ memory.program, instruction.cut = instruction := by
  obtain ⟨written, whole, -, hwhole, rfl, -⟩ := exists_left_of_emit h
  intro instruction hmem
  obtain ⟨original, horiginal, rfl⟩ := List.mem_map.mp hmem
  refine Instruction.cut_redirect ?_
  exact (emitted_of_emit hwhole).cut_eq (reachable_of_emit hwhole).indexed original
    (mem_of_mem_keep horiginal)

/-- **An emitted program is read back from its image.** -/
theorem readProgram?_of_emit {atoms : List Atom} {shortened : Bool} {memory : Memory}
    (h : emit atoms shortened = .ok memory) : readProgram? memory.image = some memory.program := by
  have hcut := cut_of_emit h
  obtain ⟨written, whole, -, hwhole, rfl, hdrops⟩ := exists_left_of_emit h
  obtain ⟨front, hprogram, hfront⟩ := halts_left (emitted_of_emit hwhole) hdrops
  have hlast : ({ operation := .halt } : Instruction).operation = .halt := rfl
  have hread := readProgram?_flatMap hfront hlast
  rw [← hprogram] at hread
  rw [Memory.image, Memory.programImage, List.append_assoc, hread]
  rw [List.map_congr_left hcut, List.map_id']

/-! ## Images -/

/-- What is found in the image of a memory. -/
structure ReadsBack (memory : Memory) : Prop where
  /-- The image ends with the last cell. -/
  length : memory.image.length = 512 + 8 * memory.cells.size
  /-- The bytes of a cell begin at its address. -/
  cells : ∀ slot cell, memory.cells[slot]? = some cell →
    (memory.image.drop (512 + 8 * slot)).take 8 = bigEndian 8 (cellWord cell.bits)
  /-- The word of an instruction is decoded as the instruction, cut to its widths. -/
  words : ∀ index instruction, memory.program[index]? = some instruction →
    Instruction.ofWord? (wordAt memory.image (4 * index)) = some instruction.cut

/-- Memory that was filled by calls is read back from its image. -/
theorem Memory.Reachable.readsBack {memory : Memory} (h : memory.Reachable) : ReadsBack memory where
  length := length_image h.indexed.words
  cells := fun _ _ => take_drop_cell h.indexed.words
  words := fun _ _ => ofWord?_wordAt

/-- The address that a call was answered with is that of its text's cell ever after. -/
theorem address_after {before later : List MemoryCall} {call : MemoryCall} {cell : Cell}
    {address : Nat} (hcell : call.cell? = some cell)
    (h : ((Memory.after {} before).call call).1 = .ok address) :
    ∃ slot bits, (Memory.after {} (before ++ call :: later)).cells[slot]? = some ⟨cell.name, bits⟩ ∧
      address = cellAddress slot := by
  generalize hcall : (Memory.after {} before).call call = outcome at h
  obtain ⟨answer, next⟩ := outcome
  obtain rfl : answer = .ok address := h
  obtain ⟨slot, hslot, -, haddress⟩ :=
    (Called.of_call hcall).address_eq (Memory.indexed_empty.after before) hcell
  have hlater : (Memory.after {} (before ++ call :: later)).slot? cell.name = some slot := by
    rw [Memory.after_append, Memory.after_cons, hcall]
    exact (Memory.grows_after next later).slots _ _ hslot
  obtain ⟨bits, hbits⟩ := ((Memory.indexed_empty.after _).slots _ _).mp hlater
  exact ⟨slot, bits, hbits, haddress⟩

/-- **Images are read back.**  The image of any memory that calls have filled has the
bytes of each cell at the address that every successful call for its text was answered
with, and the word of each instruction at four times its index.  Decoding gives the
instruction, cut to the widths of its fields, and encoding what was decoded gives the
word.  The instructions of emitted memory are not changed by the cut, and its program is
what is read from the first word on, up to the first that halts. -/
theorem image_reads_back :
    (∀ calls, ReadsBack (Memory.after {} calls)) ∧
    (∀ before call later cell address, call.cell? = some cell →
      ((Memory.after {} before).call call).1 = .ok address →
      ∃ slot bits,
        (Memory.after {} (before ++ call :: later)).cells[slot]? = some ⟨cell.name, bits⟩ ∧
        address = 512 + 8 * slot) ∧
    (∀ word instruction, Instruction.ofWord? word = some instruction →
      instruction.word = word) ∧
    ∀ atoms shortened memory, emit atoms shortened = .ok memory →
      (∃ calls, memory = Memory.after {} calls) ∧
      (∀ instruction ∈ memory.program, instruction.cut = instruction) ∧
      readProgram? memory.image = some memory.program := by
  refine ⟨?_, ?_, ?_, ?_⟩
  · intro calls
    exact Memory.Reachable.readsBack ⟨calls, rfl⟩
  · intro before call later cell address hcell h
    exact address_after hcell h
  · intro word instruction h
    exact Instruction.word_of_ofWord? h
  · intro atoms shortened memory h
    exact ⟨reachable_of_emit h, cut_of_emit h, readProgram?_of_emit h⟩

end AtomCompiler
