/-
# Decoding packed words

Fields that fit their bit ranges are read back from the word into which they are packed, in both
formats.  So the word that is put together from an operation and its operands is decoded to that
operation, and the text shows the operands, in the order of the operation's layout.

* `RegisterFields.registerFields_pack`, `ImmediateFields.immediateFields_pack` : reading undoes
  packing;
* `Operation.registerWord`, `Operation.immediateWord` : the words of operations;
* `Operation.registerText`, `Operation.immediateText` : the texts of operations;
* `Instruction.ofWord_of_packed` : what the words of operations are decoded to.
-/
import MipsListing.Proofs.Instruction
import MipsListing.Proofs.Conversion
import MipsListing.Word

namespace MipsListing

/-! ## Reading packed fields -/

/-- The field of a word, cut out of its number. -/
theorem Word.field_ofNat (value : ℕ) (h : value < 0x100000000) (range : BitRange) :
    Word.field (BitVec.ofNat 32 value) range
      = value / 2 ^ (32 - range.stop) % 2 ^ range.size := by
  rw [Word.field_eq_div_mod, BitVec.toNat_ofNat, Nat.mod_eq_of_lt h]

namespace RegisterFields

/-- The fields fit the bit ranges of the register format. -/
structure Fits (fields : RegisterFields) : Prop where
  opcode_lt : fields.opcode.toNat < 64
  rs_lt : fields.rs.toNat < 32
  rt_lt : fields.rt.toNat < 32
  rd_lt : fields.rd.toNat < 32
  shamt_lt : fields.shamt.toNat < 32
  funct_lt : fields.funct.toNat < 64

/-- **Reading undoes packing** in the register format. -/
theorem registerFields_pack (fields : RegisterFields) (h : fields.Fits) :
    fields.pack.registerFields = fields := by
  obtain ⟨hopcode, hrs, hrt, hrd, hshamt, hfunct⟩ := h
  have hcut := Word.field_ofNat (fields.opcode.toNat * 0x4000000 + fields.rs.toNat * 0x200000
    + fields.rt.toNat * 0x10000 + fields.rd.toNat * 0x800 + fields.shamt.toNat * 0x40
    + fields.funct.toNat) (by omega)
  rw [← pack] at hcut
  -- what stands above a field is a multiple of its end, what stands below is less than its unit
  have hfields : fields.pack.field .opcode = fields.opcode.toNat ∧
      fields.pack.field .rs = fields.rs.toNat ∧ fields.pack.field .rt = fields.rt.toNat ∧
      fields.pack.field .rd = fields.rd.toNat ∧ fields.pack.field .shamt = fields.shamt.toNat ∧
      fields.pack.field .funct = fields.funct.toNat := by
    simp only [hcut, BitRange.opcode, BitRange.rs, BitRange.rt, BitRange.rd, BitRange.shamt,
      BitRange.funct, BitRange.size, Nat.reduceSub, Nat.reducePow]
    omega
  obtain ⟨opcode_eq, rs_eq, rt_eq, rd_eq, shamt_eq, funct_eq⟩ := hfields
  simp only [Word.registerFields, Word.opcode, opcode_eq, rs_eq, rt_eq, rd_eq, shamt_eq, funct_eq,
    UInt8.ofNat_toNat]

end RegisterFields

/-- A signed number of sixteen bits is read back from its low half. -/
theorem twosComplement_emod (value : ℤ) (hlow : -0x8000 ≤ value) (hhigh : value < 0x8000) :
    twosComplement (value % 0x10000).toNat 16 = value := by
  have hword : ((value % 0x10000).toNat : ℤ) = value % 0x10000 :=
    Int.toNat_of_nonneg (Int.emod_nonneg value (by decide))
  rw [twosComplement_eq_iff, hword]
  exact ⟨⟨hlow, hhigh⟩, (Int.mod_modEq value _).symm⟩

namespace ImmediateFields

/-- The fields fit the bit ranges of the immediate format. -/
structure Fits (fields : ImmediateFields) : Prop where
  opcode_lt : fields.opcode.toNat < 64
  rs_lt : fields.rs.toNat < 32
  rt_lt : fields.rt.toNat < 32
  le_imm : -0x8000 ≤ fields.imm.toInt
  imm_lt : fields.imm.toInt < 0x8000

/-- **Reading undoes packing** in the immediate format. -/
theorem immediateFields_pack (fields : ImmediateFields) (h : fields.Fits) :
    fields.pack.immediateFields = fields := by
  obtain ⟨hopcode, hrs, hrt, hlow, hhigh⟩ := h
  have hcut := Word.field_ofNat (fields.opcode.toNat * 0x4000000 + fields.rs.toNat * 0x200000
    + fields.rt.toNat * 0x10000 + (fields.imm.toInt % 0x10000).toNat) (by omega)
  rw [← pack] at hcut
  have hfields : fields.pack.field .opcode = fields.opcode.toNat ∧
      fields.pack.field .rs = fields.rs.toNat ∧ fields.pack.field .rt = fields.rt.toNat ∧
      fields.pack.field .imm = (fields.imm.toInt % 0x10000).toNat := by
    simp only [hcut, BitRange.opcode, BitRange.rs, BitRange.rt, BitRange.imm, BitRange.size,
      Nat.reduceSub, Nat.reducePow]
    omega
  obtain ⟨opcode_eq, rs_eq, rt_eq, imm_eq⟩ := hfields
  simp only [Word.immediateFields, Word.opcode, opcode_eq, rs_eq, rt_eq, imm_eq, UInt8.ofNat_toNat,
    twosComplement_emod _ hlow hhigh, Int32.ofInt_toInt]

end ImmediateFields

/-! ## Words of operations -/

/-- Bits joined behind a number count as their sum with it. -/
theorem shiftLeft_or (a b i : ℕ) (h : b < 2 ^ i) : a <<< i ||| b = a * 2 ^ i + b := by
  rw [← Nat.shiftLeft_add_eq_or_of_lt h, Nat.shiftLeft_eq]

/-- A number of five bits is kept by a byte. -/
theorem toNat_ofNat_fin (n : Fin 32) : (UInt8.ofNat n).toNat = n :=
  UInt8.toNat_ofNat_of_lt' (lt_trans n.isLt (by decide))

namespace Operation

/-- The codes of operations have six bits. -/
theorem toNat_code_lt (operation : Operation) : operation.code.toNat < 64 := by
  cases operation <;> decide

/-- The word of an operation of the register format with its operands. -/
def registerWord (operation : Operation) (rs rt rd : Register) (shamt : Fin 32) : Word :=
  BitVec.ofNat 32 (rs.val <<< 21 ||| rt.val <<< 16 ||| rd.val <<< 11 ||| shamt.val <<< 6
    ||| operation.code.toNat)

/-- The fields of an operation of the register format with its operands. -/
def registerFields (operation : Operation) (rs rt rd : Register) (shamt : Fin 32) :
    RegisterFields where
  opcode := 0
  rs := UInt8.ofNat rs
  rt := UInt8.ofNat rt
  rd := UInt8.ofNat rd
  shamt := UInt8.ofNat shamt
  funct := operation.code

/-- The word of an operation of the immediate format with its operands; a negative immediate
stands in it in two's complement. -/
def immediateWord (operation : Operation) (rs rt : Register) (imm : Int16) : Word :=
  BitVec.ofNat 32 (operation.code.toNat <<< 26 ||| rs.val <<< 21 ||| rt.val <<< 16
    ||| (imm.toInt % 0x10000).toNat)

/-- The fields of an operation of the immediate format with its operands. -/
def immediateFields (operation : Operation) (rs rt : Register) (imm : Int16) :
    ImmediateFields where
  opcode := operation.code
  rs := UInt8.ofNat rs
  rt := UInt8.ofNat rt
  imm := imm.toInt32

/-- The word of an operation of the register format holds its fields. -/
theorem registerWord_eq_pack (operation : Operation) (rs rt rd : Register) (shamt : Fin 32) :
    operation.registerWord rs rt rd shamt = (operation.registerFields rs rt rd shamt).pack := by
  have hcode := operation.toNat_code_lt
  simp only [registerWord, registerFields, RegisterFields.pack, toNat_ofNat_fin, Nat.or_assoc,
    UInt8.toNat_zero]
  -- from the right, what is joined behind a field is less than the unit of the field
  rw [shiftLeft_or shamt _ 6 (by omega), shiftLeft_or rd _ 11 (by omega),
    shiftLeft_or rt _ 16 (by omega), shiftLeft_or rs _ 21 (by omega)]
  refine congrArg (BitVec.ofNat 32) ?_
  omega

/-- The word of an operation of the immediate format holds its fields. -/
theorem immediateWord_eq_pack (operation : Operation) (rs rt : Register) (imm : Int16) :
    operation.immediateWord rs rt imm = (operation.immediateFields rs rt imm).pack := by
  simp only [immediateWord, immediateFields, ImmediateFields.pack, toNat_ofNat_fin, Nat.or_assoc,
    Int16.toInt_toInt32]
  rw [shiftLeft_or rt _ 16 (by omega), shiftLeft_or rs _ 21 (by omega),
    shiftLeft_or operation.code.toNat _ 26 (by omega)]
  refine congrArg (BitVec.ofNat 32) ?_
  omega

/-- The fields that are read from the word of an operation of the register format. -/
theorem registerFields_registerWord (operation : Operation) (rs rt rd : Register)
    (shamt : Fin 32) : (operation.registerWord rs rt rd shamt).registerFields
      = operation.registerFields rs rt rd shamt := by
  rw [registerWord_eq_pack]
  apply RegisterFields.registerFields_pack
  constructor
  · show (0 : UInt8).toNat < 64
    decide
  all_goals simp only [registerFields, toNat_ofNat_fin, Fin.is_lt, operation.toNat_code_lt]

/-- The fields that are read from the word of an operation of the immediate format. -/
theorem immediateFields_immediateWord (operation : Operation) (rs rt : Register) (imm : Int16) :
    (operation.immediateWord rs rt imm).immediateFields
      = operation.immediateFields rs rt imm := by
  rw [immediateWord_eq_pack]
  apply ImmediateFields.immediateFields_pack
  constructor
  all_goals simp only [immediateFields, toNat_ofNat_fin, Fin.is_lt, operation.toNat_code_lt,
    Int16.toInt_toInt32]
  · exact imm.le_toInt
  · exact imm.toInt_lt

end Operation

/-- A field of five bits selects the register whose number it is. -/
theorem Word.register_eq (word : Word) (range : BitRange) (h : range.size ≤ 8)
    (register : Register) (hcode : UInt8.ofNat (word.field range) = UInt8.ofNat register) :
    word.register range = register := by
  have hfield : word.field range = register := by
    rw [← word.toNat_ofNat_field range h, hcode, toNat_ofNat_fin]
  rw [Word.register, hfield]
  exact Fin.ofNat_val_eq_self register

namespace Operation

/-- What the word of an operation of the register format says. -/
theorem says_registerWord (operation : Operation) (h : operation.format = .register)
    (rs rt rd : Register) (shamt : Fin 32) :
    let word := operation.registerWord rs rt rd shamt
    word.operation = .ok operation ∧ word.register .rs = rs ∧ word.register .rt = rt ∧
      word.register .rd = rd ∧ word.field .shamt = shamt := by
  intro word
  have hfields : word.registerFields = operation.registerFields rs rt rd shamt :=
    operation.registerFields_registerWord rs rt rd shamt
  refine ⟨?_, ?_, ?_, ?_, ?_⟩
  · rw [Word.operation_eq_ok_iff, h]
    exact ⟨congrArg RegisterFields.opcode hfields, (congrArg RegisterFields.funct hfields).symm⟩
  · exact word.register_eq .rs (by decide) rs (congrArg RegisterFields.rs hfields)
  · exact word.register_eq .rt (by decide) rt (congrArg RegisterFields.rt hfields)
  · exact word.register_eq .rd (by decide) rd (congrArg RegisterFields.rd hfields)
  · have hbyte : UInt8.ofNat (word.field .shamt) = UInt8.ofNat shamt :=
      congrArg RegisterFields.shamt hfields
    rw [← word.toNat_ofNat_field .shamt (by decide), hbyte, toNat_ofNat_fin]

/-- What the word of an operation of the immediate format says. -/
theorem says_immediateWord (operation : Operation) (h : operation.format = .immediate)
    (rs rt : Register) (imm : Int16) :
    let word := operation.immediateWord rs rt imm
    word.operation = .ok operation ∧ word.register .rs = rs ∧ word.register .rt = rt ∧
      word.offset = imm.toInt := by
  intro word
  have hfields : word.immediateFields = operation.immediateFields rs rt imm :=
    operation.immediateFields_immediateWord rs rt imm
  refine ⟨?_, ?_, ?_, ?_⟩
  · rw [Word.operation_eq_ok_iff, h]
    exact (congrArg ImmediateFields.opcode hfields).symm
  · exact word.register_eq .rs (by decide) rs (congrArg ImmediateFields.rs hfields)
  · exact word.register_eq .rt (by decide) rt (congrArg ImmediateFields.rt hfields)
  · rw [← word.toInt_imm, hfields]
    exact imm.toInt_toInt32

/-! ## Texts of operations -/

/-- The text of an operation of the register format with its operands. -/
def registerText (operation : Operation) (rs rt rd : Register) (shamt : ℕ) : String :=
  match operation with
  | .sll | .srl =>
    operation.mnemonic ++ " " ++ rd.name ++ ", " ++ rt.name ++ ", " ++ toString shamt
  | _ => operation.mnemonic ++ " " ++ rd.name ++ ", " ++ rs.name ++ ", " ++ rt.name

/-- The text of an operation of the immediate format with its operands; a branch shows a label
in the place of the immediate. -/
def immediateText (operation : Operation) (rs rt : Register) (imm : ℤ) (label : String) :
    String :=
  match operation with
  | .beq | .bne => operation.mnemonic ++ " " ++ rs.name ++ ", " ++ rt.name ++ ", " ++ label
  | .lui => operation.mnemonic ++ " " ++ rt.name ++ ", " ++ toString imm
  | .lbu | .lhu | .ll | .lw | .sb | .sc | .sh | .sw =>
    operation.mnemonic ++ " " ++ rt.name ++ ", " ++ toString imm ++ "(" ++ rs.name ++ ")"
  | _ => operation.mnemonic ++ " " ++ rt.name ++ ", " ++ rs.name ++ ", " ++ toString imm

/-- An instruction text with two operands. -/
theorem instructionText_pair (mnemonic a b : String) :
    instructionText mnemonic [a, b] = mnemonic ++ " " ++ a ++ ", " ++ b := by
  show mnemonic ++ " " ++ (a ++ ", " ++ b) = _
  simp only [String.append_assoc]

/-- An instruction text with three operands. -/
theorem instructionText_triple (mnemonic a b c : String) :
    instructionText mnemonic [a, b, c] = mnemonic ++ " " ++ a ++ ", " ++ b ++ ", " ++ c := by
  show mnemonic ++ " " ++ (a ++ ", " ++ b ++ ", " ++ c) = _
  simp only [String.append_assoc]

/-- The operands that a word of the register format shows make the text of its operation. -/
theorem instructionText_register (operation : Operation) (h : operation.format = .register)
    (word : Word) (label : String) :
    instructionText operation.mnemonic (word.operands label operation.layout)
      = operation.registerText (word.register .rs) (word.register .rt) (word.register .rd)
        (word.field .shamt) := by
  cases operation with
  | sll | srl => exact instructionText_triple _ _ _ _
  | add | addu | and | nor | or | slt | sltu | sub | subu => exact instructionText_triple _ _ _ _
  | _ => exact absurd h (by decide)

/-- The operands that a word of the immediate format shows make the text of its operation. -/
theorem instructionText_immediate (operation : Operation) (h : operation.format = .immediate)
    (word : Word) (label : String) :
    instructionText operation.mnemonic (word.operands label operation.layout)
      = operation.immediateText (word.register .rs) (word.register .rt) word.offset label := by
  cases operation with
  | beq | bne => exact instructionText_triple _ _ _ _
  | lui => exact instructionText_pair _ _ _
  | lbu | lhu | ll | lw | sb | sc | sh | sw =>
    -- the offset and the base register in brackets are one operand
    simp only [layout, encoding, Word.operands, instructionText_pair, immediateText,
      String.append_assoc]
  | addi | addiu | andi | ori | slti | sltiu => exact instructionText_triple _ _ _ _
  | _ => exact absurd h (by decide)

end Operation

namespace Instruction

/-! ## Decoding packed words -/

/-- A word of an operation of the register format is decoded to that operation. -/
theorem ofWord_registerWord (operation : Operation) (h : operation.format = .register)
    (rs rt rd : Register) (shamt : Fin 32) (index size : ℕ) :
    ofWord (operation.registerWord rs rt rd shamt) index size = .ok {
      operation, format := .register, target := none
      text := operation.registerText rs rt rd shamt } := by
  obtain ⟨hop, hrs, hrt, hrd, hshamt⟩ := operation.says_registerWord h rs rt rd shamt
  rw [ofWord_of_plain _ index size operation hop (operation.isBranch_of_register h),
    operation.instructionText_register h, h, hrs, hrt, hrd, hshamt]

/-- A word of an operation of the immediate format that does not branch is decoded to that
operation. -/
theorem ofWord_immediateWord (operation : Operation) (h : operation.format = .immediate)
    (hb : operation.isBranch = false) (rs rt : Register) (imm : Int16) (index size : ℕ) :
    ofWord (operation.immediateWord rs rt imm) index size = .ok {
      operation, format := .immediate, target := none
      text := operation.immediateText rs rt imm.toInt "" } := by
  obtain ⟨hop, hrs, hrt, hoffset⟩ := operation.says_immediateWord h rs rt imm
  rw [ofWord_of_plain _ index size operation hop hb, operation.instructionText_immediate h, h,
    hrs, hrt, hoffset]

/-- A word of a branch to a place of the program that has a name is decoded to that branch. -/
theorem ofWord_immediateWord_of_branch (operation : Operation) (hb : operation.isBranch = true)
    (rs rt : Register) (imm : Int16) (index size target : ℕ)
    (hindex : index < 0x8000000000000000) (htarget : (target : ℤ) = index + 1 + imm.toInt)
    (hsize : target ≤ size) (hname : target ≤ 0x3FFF) :
    ofWord (operation.immediateWord rs rt imm) index size = .ok {
      operation, format := .immediate, target := some target
      text := operation.immediateText rs rt imm.toInt (labelText target) } := by
  have h := (operation.layout_of_branch hb).1
  obtain ⟨hop, hrs, hrt, hoffset⟩ := operation.says_immediateWord h rs rt imm
  have hdest : branchDestination index imm.toInt size = .ok target := by
    rw [branchDestination_eq_ok_iff, twosComplement_of_small index hindex]
    exact ⟨htarget.symm, hsize⟩
  rw [ofWord_of_branch _ index size operation hop hb, hoffset, hdest]
  simp only [labelName_of_le target hname, bind, Except.bind]
  rw [operation.instructionText_immediate h, h, hrs, hrt, hoffset]
  rfl

/-- **Decoding inverts packing.**  The word of an operation of the register format is decoded to
that operation at every position of every program, whatever its operands are, and so is the word
of an operation of the immediate format that does not branch.  The word of a branch whose place
lies in the program and among the first places, which have names, is decoded to the branch to
that place, and the text shows the byte address of the place in four hexadecimal digits. -/
theorem ofWord_of_packed :
    (∀ operation ∈ Format.register.operations, ∀ (rs rt rd : Register) (shamt : Fin 32)
      (index size : ℕ),
      ofWord (operation.registerWord rs rt rd shamt) index size = .ok {
        operation, format := .register, target := none
        text := operation.registerText rs rt rd shamt }) ∧
    ∀ operation ∈ Format.immediate.operations, ∀ (rs rt : Register) (imm : Int16)
      (index size : ℕ), index < size → size ≤ 0x7FFFFFFFFFFFFFFF / 4 →
      (operation ∉ [.beq, .bne] →
        ofWord (operation.immediateWord rs rt imm) index size = .ok {
          operation, format := .immediate, target := none
          text := operation.immediateText rs rt imm.toInt "" }) ∧
      ∀ target : ℕ, operation ∈ [.beq, .bne] → (target : ℤ) = index + 1 + imm.toInt →
        target ≤ min size 0x3FFF →
        ∃ digits, Radix.hexadecimal.IsField 4 (4 * target) digits ∧
          ofWord (operation.immediateWord rs rt imm) index size = .ok {
            operation, format := .immediate, target := some target
            text := operation.immediateText rs rt imm.toInt ("Addr_" ++ digits) } := by
  simp only [Format.mem_operations_iff]
  have hbranch : ∀ operation : Operation, operation ∈ [.beq, .bne] ↔ operation.isBranch = true := by
    intro operation
    cases operation <;> decide
  simp only [hbranch, Bool.not_eq_true]
  refine ⟨ofWord_registerWord, fun operation h rs rt imm index size hindex hsize => ⟨?_, ?_⟩⟩
  · intro hplain
    exact ofWord_immediateWord operation h hplain rs rt imm index size
  · intro target hb htarget hle
    have hname : target ≤ 0x3FFF := le_trans hle (min_le_right _ _)
    refine ⟨String.ofList (Radix.hexadecimal.writePadded 4 (target * 4)), ?_, ?_⟩
    · rw [Nat.mul_comm 4 target]
      exact Radix.hexadecimal.isField_writePadded 4 _ (by decide)
        (lt_of_le_of_lt (Nat.mul_le_mul_right 4 hname) (by decide))
    · exact ofWord_immediateWord_of_branch operation hb rs rt imm index size target (by omega)
        htarget (le_trans hle (min_le_left _ _)) hname

/-- A shift, an access to memory below a register, and a branch to the end of its program. -/
theorem ofWord_of_packed_of_three :
    (ofWord (Operation.sll.registerWord 0 8 9 4) 0 0 = .ok {
        operation := .sll, format := .register, target := none, text := "sll $t1, $t0, 4" }) ∧
      (ofWord (Operation.lw.immediateWord 29 8 (-4)) 0 1 = .ok {
        operation := .lw, format := .immediate, target := none, text := "lw $t0, -4($sp)" }) ∧
      ∃ digits, Radix.hexadecimal.IsField 4 12 digits ∧
        ofWord (Operation.beq.immediateWord 8 9 0) 2 3 = .ok {
          operation := .beq, format := .immediate, target := some 3
          text := "beq $t0, $t1, Addr_" ++ digits } := by
  obtain ⟨hregister, himmediate⟩ := ofWord_of_packed
  obtain ⟨hplain, -⟩ := himmediate .lw (by decide) 29 8 (-4) 0 1 (by decide) (by decide)
  obtain ⟨-, hbranch⟩ := himmediate .beq (by decide) 8 9 0 2 3 (by decide) (by decide)
  obtain ⟨digits, hdigits, hdecoded⟩ := hbranch 3 (by decide) (by decide) (by decide)
  refine ⟨?_, ?_, digits, hdigits, ?_⟩
  · rw [hregister .sll (by decide)]
    decide
  · rw [hplain (by decide)]
    decide
  · rw [hdecoded, Operation.immediateText, ← String.append_assoc]
    rfl

end Instruction

end MipsListing
