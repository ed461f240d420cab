/-
# A disassembly never breaks off

A program that fits the memory has a listing, or a line of it is refused, and nothing else comes
between.  Every label finds its place when it is inserted, the destinations of branches are
computed without leaving the signed machine numbers, and a place to which a decoded instruction
branches has a name, which is the one that the text of the instruction shows.

* `LabelMap.fitsIn_of_le` : labels within the lines find their places;
* `sumFits_of_lt` : the sums of destinations in a program that fits the memory;
* `Instruction.refuses_ofWord_iff` : a word is refused for no other reason than in decoding;
* `Listing.ofProgram_never_breaks_off` : all of these together.
-/
import MipsListing.Proofs.Acceptance
import MipsListing.Proofs.Outcome

namespace MipsListing

/-! ## Places of labels -/

/-- The labels find their places among the lines: when the turn of a label comes, the labels of
higher positions are inserted, and its position counts off no more lines than there are. -/
def LabelMap.FitsIn (labels : LabelMap) (lines : List Line) : Prop :=
  ∀ lower index name higher, labels.toList = lower ++ (index, name) :: higher →
    ∃ later, higher.foldrM insertLabel lines = .ok later ∧ index ≤ later.length

/-- Labels up to the number of lines find their places. -/
theorem LabelMap.fitsIn_of_le (labels : LabelMap) (lines : List Line)
    (h : ∀ entry ∈ labels.toList, entry.1 ≤ lines.length) : labels.FitsIn lines := by
  intro lower index name higher hsplit
  rw [hsplit] at h
  have hhigher : ∀ entry ∈ higher, entry.1 ≤ lines.length :=
    fun entry he => h entry (List.mem_append_right _ (List.mem_cons_of_mem _ he))
  obtain ⟨later, hlater, hlength⟩ := foldrM_insertLabel_of_le higher lines hhigher
  have hindex : index ≤ lines.length := h (index, name) (by simp)
  exact ⟨later, hlater, by omega⟩

/-- A label that the listing can name is recorded, whatever is recorded already. -/
theorem LabelMap.exists_record (labels : LabelMap) (target : ℕ) (h : target ≤ 0x3FFF) :
    ∃ after, labels.record (some target) = .ok after := by
  simp only [record, labelName_of_le target h]
  split
  · exact ⟨labels, rfl⟩
  · exact ⟨labels.insert target (labelText target), rfl⟩

/-- What the loop has kept at the end of a program that it decodes. -/
theorem Decoding.exists_holds_of_ok (decoder : Decoder) (program : List Word)
    (decoding : Decoding) (h : ofProgram decoder program = .ok decoding) :
    ∃ instructions, decoding.Holds instructions ∧ Decodes decoder program instructions := by
  rcases decodes_or_refuses decoder program
    with ⟨instructions, hdecodes⟩ | ⟨i, hi, cause, hrefuses, hbefore⟩
  · obtain ⟨other, hother, hholds, -⟩ :=
      Listing.exists_placeIn_of_decodes decoder program instructions hdecodes
    obtain rfl := Except.ok.inj (h.symm.trans hother)
    exact ⟨instructions, hholds, hdecodes⟩
  · rw [ofProgram_of_refused decoder program i hi cause hrefuses hbefore] at h
    simp at h

/-- The labels of a decoded program find their places among its instructions. -/
theorem Decoding.fitsIn_of_ok (program : List Word) (decoding : Decoding)
    (h : ofProgram Instruction.ofWord program = .ok decoding) :
    decoding.labels.FitsIn (instructionLines decoding.instructions.toList) := by
  obtain ⟨instructions, hholds, hdecodes⟩ := exists_holds_of_ok _ program decoding h
  apply LabelMap.fitsIn_of_le
  intro entry hentry
  obtain ⟨instruction, hmem, htarget⟩ := hholds.exists_target entry hentry
  have hle := hdecodes.target_le instruction hmem entry.1 htarget
  simpa [instructionLines, hholds.instructions_eq, hdecodes.length_eq] using hle

/-! ## Sums of destinations -/

/-- The sum that gives the destination of a branch stays within the signed machine numbers, from
term to term. -/
structure SumFits (index : ℕ) (offset : ℤ) : Prop where
  /-- The position stays what it is when it is read as a signed number. -/
  index_eq : twosComplement index 64 = index
  next_le : twosComplement index 64 + 1 ≤ Int64.maxValue.toInt
  le_sum : Int64.minValue.toInt ≤ twosComplement index 64 + 1 + offset
  sum_le : twosComplement index 64 + 1 + offset ≤ Int64.maxValue.toInt

/-- An offset is a signed number of sixteen bits. -/
theorem Word.offset_bounds (word : Word) : -0x8000 ≤ word.offset ∧ word.offset < 0x8000 := by
  have hlow := BitVec.le_two_mul_toInt (x := word.extractLsb' 0 16)
  have hhigh := BitVec.two_mul_toInt_lt (x := word.extractLsb' 0 16)
  unfold offset
  omega

/-- The sums of a program that fits the memory. -/
theorem sumFits_of_lt (word : Word) (index size : ℕ) (hindex : index < size)
    (hsize : size ≤ 0x7FFFFFFFFFFFFFFF / 4) : SumFits index word.immediateFields.imm.toInt := by
  have hmin : Int64.minValue.toInt = -0x8000000000000000 := by decide
  have hmax : Int64.maxValue.toInt = 0x7FFFFFFFFFFFFFFF := by decide
  obtain ⟨hlow, hhigh⟩ := word.offset_bounds
  have hsame : twosComplement index 64 = index := twosComplement_of_small index (by omega)
  rw [word.toInt_imm]
  constructor
  · exact hsame
  · omega
  · omega
  · omega

/-! ## Refusals in decoding -/

namespace Instruction

/-- **A word is refused in decoding** or not at all. -/
theorem refuses_ofWord_iff (word : Word) (index size : ℕ) (cause : Refusal) :
    Decoder.Refuses ofWord size word index cause ↔ ofWord word index size = .error cause := by
  constructor
  · intro hrefuses
    cases hrefuses with
    | undecoded _ herror => exact herror
    | unnamed instruction target _ hdec htarget hname =>
      rw [labelName_of_le target (nameable_of_ofWord _ _ _ _ hdec target htarget)] at hname
      simp at hname
  · exact .undecoded cause

/-- The cause for which a word is refused says what is wrong with the word. -/
theorem diagnosis_of_ofWord (word : Word) (index size : ℕ) (hindex : index < size)
    (hsize : size ≤ 0x7FFFFFFFFFFFFFFF / 4) (cause : Refusal)
    (h : ofWord word index size = .error cause) : word.Diagnosis index size cause := by
  have hno : ¬ word.Accepted index size := by
    intro haccepted
    obtain ⟨instruction, hok⟩ := ofWord_of_accepted word index size hindex hsize haccepted
    simp [hok] at h
  rw [ofWord_of_not_accepted word index size hindex hsize hno] at h
  rw [← Except.error.inj h]
  exact word.diagnosis_fault index size hno

end Instruction

namespace Listing

/-- A program is decoded word by word, or its first refused word is reported. -/
theorem ofProgram_cases (program : List Word) :
    (∃ instructions, Decodes Instruction.ofWord program instructions) ∨
      ∃ (i : ℕ) (hi : i < program.length) (cause : Refusal),
        Instruction.ofWord program[i] i program.length = .error cause ∧
        (∀ (j : ℕ) (hj : j < program.length), j < i →
          ∃ instruction, Instruction.ofWord program[j] j program.length = .ok instruction) ∧
        ofProgram program = .error (.atLine (refusalAt program[i] i cause)) := by
  rcases Decoding.decodes_or_refuses Instruction.ofWord program
    with hdecodes | ⟨i, hi, cause, hrefuses, hbefore⟩
  · exact Or.inl hdecodes
  · refine Or.inr ⟨i, hi, cause, (Instruction.refuses_ofWord_iff _ _ _ _).mp hrefuses, ?_,
      ofProgramBy_of_refused _ program i hi cause hrefuses hbefore⟩
    intro j hj hlt
    obtain ⟨instruction, hdecoded, -⟩ := hbefore j hj hlt
    exact ⟨instruction, hdecoded⟩

/-- **A disassembly never breaks off.**  A program that fits the memory has a listing, with no
fewer lines than words, or a word of it is refused in decoding, for another cause than the width
of a field.  When a label is inserted, its position lies within the lines.  The sums that give
the destinations of branches stay within the signed machine numbers.  The target of every
instruction that a word is decoded to has a name, which the text of the instruction shows as its
last operand and which is recorded without fail. -/
theorem ofProgram_never_breaks_off (program : List Word)
    (hsize : program.length ≤ 0x7FFFFFFFFFFFFFFF / 4) :
    ((∃ listing, ofProgram program = .ok listing ∧ program.length ≤ listing.size) ∨
      ∃ (i : ℕ) (hi : i < program.length) (cause : Refusal),
        Instruction.ofWord program[i] i program.length = .error cause ∧
        (∀ width, cause ≠ .widthTooLarge width) ∧
        ofProgram program = .error (.atLine (refusalAt program[i] i cause))) ∧
    (∀ decoding, Decoding.ofProgram Instruction.ofWord program = .ok decoding →
      decoding.labels.FitsIn (instructionLines decoding.instructions.toList)) ∧
    (∀ (i : ℕ) (hi : i < program.length), SumFits i program[i].immediateFields.imm.toInt) ∧
    ∀ (word : Word) (index size : ℕ) (instruction : Instruction) (target : ℕ),
      Instruction.ofWord word index size = .ok instruction → instruction.target = some target →
      ∃ name, labelName target = .ok name ∧
        instruction.text = instructionText instruction.operation.mnemonic
          [(word.register .rs).name, (word.register .rt).name, name] ∧
        ∀ labels : LabelMap, ∃ after, labels.record (some target) = .ok after := by
  refine ⟨?_, Decoding.fitsIn_of_ok program, fun i hi => sumFits_of_lt _ i _ hi hsize, ?_⟩
  · rcases ofProgram_cases program
      with ⟨instructions, hdecodes⟩ | ⟨i, hi, cause, hword, -, herror⟩
    · refine Or.inl ⟨_, ofProgram_of_decodes program instructions hdecodes, ?_⟩
      rw [← hdecodes.length_eq]
      exact length_le_length_interleave _ instructions 0
    · have hdiagnosis := Instruction.diagnosis_of_ofWord _ i _ hi hsize cause hword
      exact Or.inr ⟨i, hi, cause, hword, hdiagnosis.ne_widthTooLarge, herror⟩
  · intro word index size instruction target hword ht
    have hfrom := Instruction.decodedFrom_of_ofWord word index size instruction hword
    have hle := (hfrom.target_eq_some target ht).2.1
    exact ⟨labelText target, labelName_of_le target hle, hfrom.text_eq_of_target target ht,
      fun labels => labels.exists_record target hle⟩

/-- Two branches to the end of a program of two words: the only label is inserted behind both, and
it is the one that the second branch names. -/
theorem ofProgram_never_breaks_off_of_branches :
    let program : List Word := [0x10000001, 0x10000000]
    program.length ≤ 0x7FFFFFFFFFFFFFFF / 4 ∧
      (∃ listing, ofProgram program = .ok listing ∧ program.length ≤ listing.size) ∧
      SumFits 1 (Word.immediateFields 0x10000000).imm.toInt ∧
      ∃ name, labelName 2 = .ok name ∧
        "beq $zero, $zero, Addr_0008" = instructionText "beq" ["$zero", "$zero", name] := by
  intro program
  have hsize : program.length ≤ 0x7FFFFFFFFFFFFFFF / 4 := by decide
  obtain ⟨hcases, -, hsums, hnames⟩ := ofProgram_never_breaks_off program hsize
  refine ⟨hsize, ?_, hsums 1 (by decide), ?_⟩
  · rcases hcases with hlisting | ⟨i, hi, cause, -, -, herror⟩
    · exact hlisting
    · have hok : (ofProgram program).isOk = true := by decide
      rw [herror] at hok
      simp [Except.isOk, Except.toBool] at hok
  · have hword : Instruction.ofWord 0x10000000 1 2
        = .ok ⟨.beq, .immediate, "beq $zero, $zero, Addr_0008", some 2⟩ := by decide
    obtain ⟨name, hname, htext, -⟩ := hnames 0x10000000 1 2 _ 2 hword rfl
    exact ⟨name, hname, htext⟩

end Listing

end MipsListing
