/-
# Which programs have a listing

A word of a program is accepted for its codes alone, unless it is a branch; then the place to
which it leads counts too, which must lie in the program and have an address of four digits.  A
program has a listing exactly if all its words are accepted, and the refusal of any other program
says what is wrong with its first word that is not.

* `Word.Accepted` : the words that are accepted at a position of a program;
* `Word.fault`, `Word.Diagnosis` : what is wrong with the others;
* `Instruction.ofWord_of_accepted`, `Instruction.ofWord_of_not_accepted` : the two outcomes of a
  word;
* `Listing.ofProgram_ok_iff_accepted` : the two outcomes of a program.
-/
import MipsListing.Proofs.Placement

namespace MipsListing

/-! ## Codes -/

/-- The function codes of the register format. -/
def functionCodes : List UInt8 :=
  [0x00, 0x02, 0x20, 0x21, 0x22, 0x23, 0x24, 0x25, 0x27, 0x2A, 0x2B]

/-- The opcodes of the immediate format, those of branches apart. -/
def plainOpcodes : List UInt8 :=
  [0x08, 0x09, 0x0A, 0x0B, 0x0C, 0x0D, 0x0F, 0x23, 0x24, 0x25, 0x28, 0x29, 0x2B, 0x30, 0x38]

/-- The opcodes of branches. -/
def branchOpcodes : List UInt8 := [0x04, 0x05]

/-- The function codes are those of the operations of the register format. -/
theorem mem_functionCodes_iff (code : UInt8) :
    code ∈ functionCodes ↔
      ∃ operation : Operation, operation.format = .register ∧ operation.code = code := by
  have hperm : functionCodes.Perm (Format.register.operations.map Operation.code) := by decide
  rw [hperm.mem_iff, List.mem_map]
  simp only [Format.mem_operations_iff]

/-- The opcodes of branches are those of the operations that branch. -/
theorem mem_branchOpcodes_iff (code : UInt8) :
    code ∈ branchOpcodes ↔ ∃ operation : Operation, operation.format = .immediate ∧
      operation.isBranch = true ∧ operation.code = code := by
  have hperm : branchOpcodes.Perm
      ((Format.immediate.operations.filter (·.isBranch)).map Operation.code) := by decide
  rw [hperm.mem_iff, List.mem_map]
  simp only [List.mem_filter, Format.mem_operations_iff, and_assoc]

/-- The other opcodes are those of the operations that do not branch. -/
theorem mem_plainOpcodes_iff (code : UInt8) :
    code ∈ plainOpcodes ↔ ∃ operation : Operation, operation.format = .immediate ∧
      operation.isBranch = false ∧ operation.code = code := by
  have hperm : plainOpcodes.Perm
      ((Format.immediate.operations.filter (!·.isBranch)).map Operation.code) := by decide
  rw [hperm.mem_iff, List.mem_map]
  simp only [List.mem_filter, Format.mem_operations_iff, and_assoc, Bool.not_eq_true']

/-- The opcodes of branches lie above three. -/
theorem three_lt_of_mem_branchOpcodes (code : UInt8) (h : code ∈ branchOpcodes) : 3 < code := by
  obtain ⟨operation, hformat, -, rfl⟩ := (mem_branchOpcodes_iff code).mp h
  exact operation.three_lt_code hformat

/-- The opcodes of neither format. -/
theorem ne_zero_and_le_three_iff (code : UInt8) :
    code ≠ 0 ∧ code ≤ 3 ↔ code = 1 ∨ code = 2 ∨ code = 3 := by
  simp only [← UInt8.toNat_inj, UInt8.le_iff_toNat_le, ne_eq, UInt8.reduceToNat]
  omega

/-- An opcode above three is no opcode of the register format and not unsupported. -/
theorem ne_zero_and_not_low_of_lt (code : UInt8) (h : 3 < code) :
    code ≠ 0 ∧ ¬ (code = 1 ∨ code = 2 ∨ code = 3) := by
  refine ⟨?_, fun hlow => ?_⟩
  · rintro rfl
    exact absurd h (by decide)
  · exact absurd h (UInt8.not_lt.mpr ((ne_zero_and_le_three_iff code).mpr hlow).2)

namespace Word

/-! ## Accepted words and the others -/

/-- The position to which a word at `index` leads if it is a branch. -/
def destination (word : Word) (index : ℕ) : ℤ := index + 1 + word.offset

/-- The words that are accepted at a position of a program of `size` words. -/
def Accepted (word : Word) (index size : ℕ) : Prop :=
  (word.opcode = 0 ∧ word.funct ∈ functionCodes) ∨ word.opcode ∈ plainOpcodes ∨
    (word.opcode ∈ branchOpcodes ∧ 0 ≤ word.destination index ∧
      word.destination index ≤ min size 0x3FFF)

instance (word : Word) (index size : ℕ) : Decidable (word.Accepted index size) :=
  inferInstanceAs (Decidable (_ ∨ _ ∨ _))

/-- What is wrong with a word that is not accepted. -/
def fault (word : Word) (index size : ℕ) : Refusal :=
  if word.opcode = 0 then .unknownCode .register word.funct
  else if word.opcode ≤ 3 then .unsupportedOpcode word.opcode
  else if word.opcode ∉ branchOpcodes then .unknownCode .immediate word.opcode
  else if 0 ≤ word.destination index ∧ word.destination index ≤ size then
    .fieldTooWide (toString ((word.destination index).toNat * 4)) (.digits .hexadecimal) 4
  else .branchOutOfRange (word.destination index)

/-- A cause says what is wrong with a word at a position of a program of `size` words. -/
structure Diagnosis (word : Word) (index size : ℕ) (cause : Refusal) : Prop where
  unsupportedOpcode_iff : ∀ code, cause = .unsupportedOpcode code ↔
    code = word.opcode ∧ (word.opcode = 1 ∨ word.opcode = 2 ∨ word.opcode = 3)
  unknownFunction_iff : ∀ code, cause = .unknownCode .register code ↔
    code = word.funct ∧ word.opcode = 0
  unknownOpcode_iff : ∀ code, cause = .unknownCode .immediate code ↔
    code = word.opcode ∧ 3 < word.opcode ∧ word.opcode ∉ plainOpcodes ++ branchOpcodes
  branchOutOfRange_iff : ∀ target, cause = .branchOutOfRange target ↔
    target = word.destination index ∧ word.opcode ∈ branchOpcodes ∧ (target < 0 ∨ size < target)
  fieldTooWide_iff : ∀ value field width, cause = .fieldTooWide value field width ↔
    (value = toString ((word.destination index).toNat * 4) ∧ field = .digits .hexadecimal ∧
      width = 4) ∧
    word.opcode ∈ branchOpcodes ∧ 0 ≤ word.destination index ∧ word.destination index ≤ size ∧
    0xFFFF < word.destination index * 4
  /-- Every code of five bits names a register. -/
  ne_unknownRegister : ∀ code, cause ≠ .unknownRegister code
  /-- A word is not a text. -/
  ne_malformed : ∀ text reason, cause ≠ .malformed text reason
  /-- Four digits are a width that every field can have. -/
  ne_widthTooLarge : ∀ width, cause ≠ .widthTooLarge width

/-! ### One diagnosis for each kind of cause

The conditions of the five causes exclude each other: an opcode is zero, one of three others up to
three, or above, and of those above three only the branches have a destination, which lies inside
or outside. -/

/-- Under opcode zero there is only a function code to be unknown. -/
theorem diagnosis_unknownFunction (word : Word) (index size : ℕ) (h0 : word.opcode = 0) :
    word.Diagnosis index size (.unknownCode .register word.funct) := by
  have hbranch : word.opcode ∉ branchOpcodes := by
    rw [h0]
    decide
  constructor
  case unsupportedOpcode_iff => exact fun _ => iff_of_false nofun fun h => by simp [h0] at h
  case unknownFunction_iff =>
    intro code
    simp [h0, eq_comm]
  case unknownOpcode_iff => exact fun _ => iff_of_false nofun fun h => by simp [h0] at h
  case branchOutOfRange_iff => exact fun _ => iff_of_false nofun fun h => hbranch h.2.1
  case fieldTooWide_iff => exact fun _ _ _ => iff_of_false nofun fun h => hbranch h.2.1
  case ne_unknownRegister | ne_malformed | ne_widthTooLarge => exact nofun

/-- An opcode from one to three is unsupported, and no code of an operation. -/
theorem diagnosis_unsupportedOpcode (word : Word) (index size : ℕ) (h0 : word.opcode ≠ 0)
    (h3 : word.opcode ≤ 3) : word.Diagnosis index size (.unsupportedOpcode word.opcode) := by
  have hlow := (ne_zero_and_le_three_iff _).mp ⟨h0, h3⟩
  have hbranch : word.opcode ∉ branchOpcodes := fun h =>
    absurd (three_lt_of_mem_branchOpcodes _ h) (UInt8.not_lt.mpr h3)
  constructor
  case unsupportedOpcode_iff =>
    intro code
    constructor
    · rintro ⟨⟩
      exact ⟨rfl, hlow⟩
    · rintro ⟨rfl, -⟩
      rfl
  case unknownFunction_iff => exact fun _ => iff_of_false nofun fun h => h0 h.2
  case unknownOpcode_iff =>
    exact fun _ => iff_of_false nofun fun h => absurd h.2.1 (UInt8.not_lt.mpr h3)
  case branchOutOfRange_iff => exact fun _ => iff_of_false nofun fun h => hbranch h.2.1
  case fieldTooWide_iff => exact fun _ _ _ => iff_of_false nofun fun h => hbranch h.2.1
  case ne_unknownRegister | ne_malformed | ne_widthTooLarge => exact nofun

/-- An opcode above three that selects no operation is unknown. -/
theorem diagnosis_unknownOpcode (word : Word) (index size : ℕ) (h3 : 3 < word.opcode)
    (hplain : word.opcode ∉ plainOpcodes) (hbranch : word.opcode ∉ branchOpcodes) :
    word.Diagnosis index size (.unknownCode .immediate word.opcode) := by
  obtain ⟨h0, hlow⟩ := ne_zero_and_not_low_of_lt _ h3
  constructor
  case unsupportedOpcode_iff => exact fun _ => iff_of_false nofun fun h => hlow h.2
  case unknownFunction_iff => exact fun _ => iff_of_false nofun fun h => h0 h.2
  case unknownOpcode_iff =>
    intro code
    simp [h3, hplain, hbranch, eq_comm]
  case branchOutOfRange_iff => exact fun _ => iff_of_false nofun fun h => hbranch h.2.1
  case fieldTooWide_iff => exact fun _ _ _ => iff_of_false nofun fun h => hbranch h.2.1
  case ne_unknownRegister | ne_malformed | ne_widthTooLarge => exact nofun

/-- A branch out of the program. -/
theorem diagnosis_branchOutOfRange (word : Word) (index size : ℕ)
    (hbranch : word.opcode ∈ branchOpcodes)
    (hout : word.destination index < 0 ∨ size < word.destination index) :
    word.Diagnosis index size (.branchOutOfRange (word.destination index)) := by
  obtain ⟨h0, hlow⟩ := ne_zero_and_not_low_of_lt _ (three_lt_of_mem_branchOpcodes _ hbranch)
  constructor
  case unsupportedOpcode_iff => exact fun _ => iff_of_false nofun fun h => hlow h.2
  case unknownFunction_iff => exact fun _ => iff_of_false nofun fun h => h0 h.2
  case unknownOpcode_iff =>
    exact fun _ => iff_of_false nofun fun h => h.2.2 (List.mem_append_right _ hbranch)
  case branchOutOfRange_iff =>
    intro target
    constructor
    · rintro ⟨⟩
      exact ⟨rfl, hbranch, hout⟩
    · rintro ⟨rfl, -⟩
      rfl
  case fieldTooWide_iff =>
    exact fun _ _ _ => iff_of_false nofun fun ⟨_, _, hlow, hhigh, _⟩ => by omega
  case ne_unknownRegister | ne_malformed | ne_widthTooLarge => exact nofun

/-- A branch to a place of the program whose address has more than four digits. -/
theorem diagnosis_fieldTooWide (word : Word) (index size : ℕ)
    (hbranch : word.opcode ∈ branchOpcodes) (hlow : 0 ≤ word.destination index)
    (hhigh : word.destination index ≤ size) (hfar : 0xFFFF < word.destination index * 4) :
    word.Diagnosis index size
      (.fieldTooWide (toString ((word.destination index).toNat * 4)) (.digits .hexadecimal) 4) := by
  obtain ⟨h0, hnone⟩ := ne_zero_and_not_low_of_lt _ (three_lt_of_mem_branchOpcodes _ hbranch)
  constructor
  case unsupportedOpcode_iff => exact fun _ => iff_of_false nofun fun h => hnone h.2
  case unknownFunction_iff => exact fun _ => iff_of_false nofun fun h => h0 h.2
  case unknownOpcode_iff =>
    exact fun _ => iff_of_false nofun fun h => h.2.2 (List.mem_append_right _ hbranch)
  case branchOutOfRange_iff =>
    intro target
    refine iff_of_false nofun ?_
    rintro ⟨rfl, -, hout⟩
    omega
  case fieldTooWide_iff =>
    intro value field width
    constructor
    · rintro ⟨⟩
      exact ⟨⟨rfl, rfl, rfl⟩, hbranch, hlow, hhigh, hfar⟩
    · rintro ⟨⟨rfl, rfl, rfl⟩, -⟩
      rfl
  case ne_unknownRegister | ne_malformed | ne_widthTooLarge => exact nofun

/-- **The fault of a word that is not accepted** is what is wrong with it. -/
theorem diagnosis_fault (word : Word) (index size : ℕ) (h : ¬ word.Accepted index size) :
    word.Diagnosis index size (word.fault index size) := by
  unfold fault
  split_ifs with h0 h3 hbranch hin
  · exact word.diagnosis_unknownFunction index size h0
  · exact word.diagnosis_unsupportedOpcode index size h0 h3
  · -- the destination lies in the program, so it can only be too far for a name
    have hfar : ¬ word.destination index ≤ min size 0x3FFF := fun hmin =>
      h (Or.inr (Or.inr ⟨hbranch, hin.1, hmin⟩))
    exact word.diagnosis_fieldTooWide index size hbranch hin.1 hin.2 (by omega)
  · exact word.diagnosis_branchOutOfRange index size hbranch (by omega)
  · exact word.diagnosis_unknownOpcode index size (UInt8.not_le.mp h3)
      (fun hplain => h (Or.inr (Or.inl hplain))) hbranch

/-! ## The operations of accepted words -/

/-- A word of the register format with a function code of an operation selects that operation. -/
theorem operation_of_mem_functionCodes (word : Word) (h0 : word.opcode = 0)
    (h : word.funct ∈ functionCodes) :
    ∃ operation, word.operation = .ok operation ∧ operation.isBranch = false := by
  obtain ⟨operation, hformat, hcode⟩ := (mem_functionCodes_iff _).mp h
  refine ⟨operation, ?_, operation.isBranch_of_register hformat⟩
  rw [operation_of_zero word h0, Format.operation_eq_ok_iff]
  exact ⟨hformat, hcode⟩

/-- A word with an opcode of an operation of the immediate format selects that operation. -/
theorem operation_of_code_eq (word : Word) (operation : Operation)
    (hformat : operation.format = .immediate) (hcode : operation.code = word.opcode) :
    word.operation = .ok operation := by
  rw [operation_of_lt word (hcode ▸ operation.three_lt_code hformat),
    Format.operation_eq_ok_iff]
  exact ⟨hformat, hcode⟩

end Word

/-! ## The two outcomes of a word -/

namespace Instruction

/-- A branch leads to its destination if that lies in the program. -/
theorem ofWord_of_mem_branchOpcodes (word : Word) (index size : ℕ) (hindex : index < size)
    (hsize : size ≤ 0x7FFFFFFFFFFFFFFF / 4) (hb : word.opcode ∈ branchOpcodes) :
    ∃ content : String → Instruction, ofWord word index size =
      if 0 ≤ word.destination index ∧ word.destination index ≤ size then do
        let label ← labelName (word.destination index).toNat
        return content label
      else .error (.branchOutOfRange (word.destination index)) := by
  obtain ⟨operation, hformat, hbranch, hcode⟩ := (mem_branchOpcodes_iff _).mp hb
  have hop := word.operation_of_code_eq operation hformat hcode
  have hdest : branchDestination index word.offset size =
      if 0 ≤ word.destination index ∧ word.destination index ≤ size then
        .ok (word.destination index).toNat
      else .error (.branchOutOfRange (word.destination index)) :=
    branchDestination_of_small index word.offset size (by omega)
  rw [ofWord_of_branch word index size operation hop hbranch, hdest]
  refine ⟨fun label => ⟨operation, operation.format,
    instructionText operation.mnemonic (word.operands label operation.layout),
    some (word.destination index).toNat⟩, ?_⟩
  split
  · rfl
  · rfl

/-- **An accepted word** has an instruction. -/
theorem ofWord_of_accepted (word : Word) (index size : ℕ) (hindex : index < size)
    (hsize : size ≤ 0x7FFFFFFFFFFFFFFF / 4) (h : word.Accepted index size) :
    ∃ instruction, ofWord word index size = .ok instruction := by
  rcases h with ⟨h0, hfunct⟩ | hcode | ⟨hb, hlow, hhigh⟩
  · obtain ⟨operation, hop, hbranch⟩ := word.operation_of_mem_functionCodes h0 hfunct
    exact ⟨_, ofWord_of_plain word index size operation hop hbranch⟩
  · obtain ⟨operation, hformat, hbranch, hsame⟩ := (mem_plainOpcodes_iff _).mp hcode
    have hop := word.operation_of_code_eq operation hformat hsame
    exact ⟨_, ofWord_of_plain word index size operation hop hbranch⟩
  · obtain ⟨content, hword⟩ := ofWord_of_mem_branchOpcodes word index size hindex hsize hb
    rw [hword, if_pos ⟨hlow, by omega⟩, labelName_of_le _ (by omega)]
    exact ⟨_, rfl⟩

/-- **A word that is not accepted** is refused for its fault. -/
theorem ofWord_of_not_accepted (word : Word) (index size : ℕ) (hindex : index < size)
    (hsize : size ≤ 0x7FFFFFFFFFFFFFFF / 4) (h : ¬ word.Accepted index size) :
    ofWord word index size = .error (word.fault index size) := by
  unfold Word.fault
  split_ifs with h0 h3 hb hin
  · apply ofWord_of_error
    rw [word.operation_of_zero h0]
    apply Format.operation_of_forall_ne
    intro operation hformat hcode
    exact h (Or.inl ⟨h0, (mem_functionCodes_iff _).mpr ⟨operation, hformat, hcode⟩⟩)
  · exact ofWord_of_error word index size _ (word.operation_of_le h0 h3)
  · -- the destination lies in the program, so it can only be too far for a name
    have hfar : ¬ word.destination index ≤ min size 0x3FFF := fun hmin =>
      h (Or.inr (Or.inr ⟨hb, hin.1, hmin⟩))
    have hshown : shownAddress (word.destination index).toNat
        = (word.destination index).toNat * 4 := by
      unfold shownAddress
      rw [if_pos]
      simp only [UInt64.size]
      omega
    obtain ⟨content, hword⟩ := ofWord_of_mem_branchOpcodes word index size hindex hsize hb
    rw [hword, if_pos hin, labelName_of_lt _ (by omega), hshown]
    rfl
  · obtain ⟨content, hword⟩ := ofWord_of_mem_branchOpcodes word index size hindex hsize hb
    rw [hword, if_neg hin]
  · apply ofWord_of_error
    rw [word.operation_of_lt (by simpa using h3)]
    apply Format.operation_of_forall_ne
    intro operation hformat hcode
    cases hbranch : operation.isBranch with
    | false =>
      have hmem := (mem_plainOpcodes_iff _).mpr ⟨operation, hformat, hbranch, hcode⟩
      exact h (Or.inr (Or.inl hmem))
    | true => exact hb ((mem_branchOpcodes_iff _).mpr ⟨operation, hformat, hbranch, hcode⟩)

/-- An accepted word has an instruction, and the place to which it branches has a name. -/
theorem accepts_of_accepted (word : Word) (index size : ℕ)
    (hindex : index < size) (hsize : size ≤ 0x7FFFFFFFFFFFFFFF / 4)
    (h : word.Accepted index size) : Decoder.Accepts ofWord size word index := by
  obtain ⟨instruction, hok⟩ := ofWord_of_accepted word index size hindex hsize h
  exact ⟨instruction, hok, nameable_of_ofWord _ _ _ _ hok⟩

end Instruction

/-! ## The two outcomes of a program -/

namespace Listing

/-- A program whose words are accepted has a listing. -/
theorem exists_ofProgram_of_accepted (program : List Word)
    (hsize : program.length ≤ 0x7FFFFFFFFFFFFFFF / 4)
    (h : ∀ (i : ℕ) (hi : i < program.length), program[i].Accepted i program.length) :
    ∃ listing, ofProgram program = .ok listing := by
  obtain ⟨-, instructions, -, -, hdecodes⟩ := Decoding.ofProgram_of_accepts Instruction.ofWord
    program (fun i hi => Instruction.accepts_of_accepted _ i _ hi hsize (h i hi))
  exact ⟨_, ofProgram_of_decodes program instructions hdecodes⟩

/-- A program is refused for the fault of its first word that is not accepted. -/
theorem ofProgram_of_not_accepted (program : List Word)
    (hsize : program.length ≤ 0x7FFFFFFFFFFFFFFF / 4) (i : ℕ) (hi : i < program.length)
    (hno : ¬ program[i].Accepted i program.length)
    (hbefore : ∀ (j : ℕ) (hj : j < program.length), j < i →
      program[j].Accepted j program.length) :
    ofProgram program
      = .error (.atLine (refusalAt program[i] i (program[i].fault i program.length))) := by
  have hfault := Instruction.ofWord_of_not_accepted program[i] i program.length hi hsize hno
  exact ofProgramBy_of_refused _ program i hi _ (.undecoded _ hfault)
    (fun j hj hlt => Instruction.accepts_of_accepted _ j _ hj hsize (hbefore j hj hlt))

/-- **Which programs have a listing, and what is wrong with the others.**  A program that fits the
memory has a listing exactly if all its words are accepted.  Else the refusal is pinned to the
first word that is not, and its cause says what is wrong with that word. -/
theorem ofProgram_ok_iff_accepted (program : List Word)
    (hsize : program.length ≤ 0x7FFFFFFFFFFFFFFF / 4) :
    ((∃ listing, ofProgram program = .ok listing) ↔
      ∀ (i : ℕ) (hi : i < program.length), program[i].Accepted i program.length) ∧
    ∀ (i : ℕ) (hi : i < program.length), ¬ program[i].Accepted i program.length →
      (∀ (j : ℕ) (hj : j < program.length), j < i → program[j].Accepted j program.length) →
      ∃ cause, ofProgram program = .error (.atLine (refusalAt program[i] i cause)) ∧
        program[i].Diagnosis i program.length cause := by
  refine ⟨⟨?_, exists_ofProgram_of_accepted program hsize⟩, ?_⟩
  · rintro ⟨listing, hok⟩
    rcases forall_or_exists_first (fun i word => word.Accepted i program.length) program
      with hall | ⟨i, hi, hno, hbefore⟩
    · exact hall
    · -- the first word that is not accepted would have ended the run
      rw [ofProgram_of_not_accepted program hsize i hi hno hbefore] at hok
      simp at hok
  · intro i hi hno hbefore
    exact ⟨_, ofProgram_of_not_accepted program hsize i hi hno hbefore,
      program[i].diagnosis_fault i program.length hno⟩

/-- A branch within a program, and behind it two words that are not accepted.  The first of them
is refused. -/
theorem ofProgram_ok_iff_accepted_of_stray :
    let program : List Word := [0x10000001, 0x04000000, 0xFC000000]
    (¬ ∃ listing, ofProgram program = .ok listing) ∧
      ofProgram program
        = .error (.atLine (refusalAt 0x04000000 1 (.unsupportedOpcode 1))) := by
  intro program
  have hsize : program.length ≤ 0x7FFFFFFFFFFFFFFF / 4 := by decide
  obtain ⟨hiff, hfirst⟩ := ofProgram_ok_iff_accepted program hsize
  have hno : ¬ program[1].Accepted 1 program.length := by
    show ¬ Word.Accepted 0x04000000 1 3
    decide
  have hbefore : ∀ (j : ℕ) (hj : j < program.length), j < 1 →
      program[j].Accepted j program.length := by
    intro j _ hj
    obtain rfl : j = 0 := by omega
    show Word.Accepted 0x10000001 0 3
    decide
  obtain ⟨cause, herror, hdiagnosis⟩ := hfirst 1 (by decide) hno hbefore
  have hcause : cause = .unsupportedOpcode 1 :=
    (hdiagnosis.unsupportedOpcode_iff 1).mpr (by decide)
  refine ⟨fun hok => hno (hiff.mp hok 1 (by decide)), ?_⟩
  rw [herror, hcause]
  rfl

end Listing

end MipsListing
