/-
# What a word decodes to

The dispatch over formats and tables comes to this: a word selects at most one operation, by its
opcode and in the register format also by its function code.  The registers of a word always
have names, so a word that selects an operation is refused only if it branches.

* `Word.operation_eq_ok_iff` : the operation that a word selects;
* `Instruction.ofWord_of_plain`, `Instruction.ofWord_of_branch` : what the word decodes to.
-/
import MipsListing.Proofs.Field
import MipsListing.Proofs.Label
import MipsListing.Instruction

namespace MipsListing

/-! ## Looking up operations -/

/-- The table of a format lists the operations of that format. -/
theorem Format.mem_operations_iff (format : Format) (operation : Operation) :
    operation ∈ format.operations ↔ operation.format = format := by
  cases format <;> cases operation <;> decide

/-- The operation that a code selects in a format is the one with that format and code. -/
theorem Format.operation_eq_ok_iff (format : Format) (code : UInt8) (operation : Operation) :
    format.operation code = .ok operation ↔
      operation.format = format ∧ operation.code = code := by
  constructor
  · intro h
    unfold Format.operation at h
    split at h
    · rename_i found hfind
      obtain rfl := Except.ok.inj h
      have hcode := List.find?_some hfind
      have hmem := List.mem_of_find?_eq_some hfind
      exact ⟨(format.mem_operations_iff found).mp hmem, by simpa using hcode⟩
    · simp at h
  · rintro ⟨rfl, rfl⟩
    cases operation <;> rfl

/-- A code that no operation of a format has is refused. -/
theorem Format.operation_of_forall_ne (format : Format) (code : UInt8)
    (h : ∀ operation : Operation, operation.format = format → operation.code ≠ code) :
    format.operation code = .error (.unknownCode format code) := by
  cases hlookup : format.operation code with
  | ok operation =>
    obtain ⟨hformat, hcode⟩ := (Format.operation_eq_ok_iff format code operation).mp hlookup
    exact absurd hcode (h operation hformat)
  | error cause =>
    unfold Format.operation at hlookup
    split at hlookup
    · simp at hlookup
    · exact hlookup.symm

/-- The operations of the immediate format lie above the opcodes of neither format. -/
theorem Operation.three_lt_code (operation : Operation) (h : operation.format = .immediate) :
    3 < operation.code := by
  revert h
  cases operation <;> decide

namespace Word

/-- The function code of a word. -/
def funct (word : Word) : UInt8 := word.registerFields.funct

/-- The operation that a word selects. -/
def operation (word : Word) : Except Refusal Operation := do
  match ← Format.ofOpcode word.opcode with
  | .register => Format.register.operation word.funct
  | .immediate => Format.immediate.operation word.opcode

theorem operation_of_zero (word : Word) (h : word.opcode = 0) :
    word.operation = Format.register.operation word.funct := by
  unfold operation Format.ofOpcode
  rw [if_pos h]
  rfl

theorem operation_of_le (word : Word) (h0 : word.opcode ≠ 0) (h : word.opcode ≤ 3) :
    word.operation = .error (.unsupportedOpcode word.opcode) := by
  unfold operation Format.ofOpcode
  rw [if_neg h0, if_pos h]
  rfl

theorem operation_of_lt (word : Word) (h : 3 < word.opcode) :
    word.operation = Format.immediate.operation word.opcode := by
  have h0 : word.opcode ≠ 0 := by
    rintro h0
    rw [h0] at h
    exact absurd h (by decide)
  unfold operation Format.ofOpcode
  rw [if_neg h0, if_neg (by simpa using h)]
  rfl

/-- The opcode of an operation of the immediate format calls for that format. -/
theorem ofOpcode_of_operation (word : Word) (operation : Operation)
    (hformat : operation.format = .immediate) (hcode : operation.code = word.opcode) :
    Format.ofOpcode word.opcode = .ok .immediate := by
  have hlt := operation.three_lt_code hformat
  rw [hcode] at hlt
  rw [Format.ofOpcode, if_neg (by rintro h0; rw [h0] at hlt; exact absurd hlt (by decide)),
    if_neg (by simpa using hlt)]

/-- **The operation of a word**: in the register format the function code selects it, in the
immediate format the opcode. -/
theorem operation_eq_ok_iff (word : Word) (operation : Operation) :
    word.operation = .ok operation ↔
      match operation.format with
      | .register => word.opcode = 0 ∧ operation.code = word.funct
      | .immediate => operation.code = word.opcode := by
  -- the cases are those of the dispatch: register format, neither format, immediate format
  by_cases h0 : word.opcode = 0
  · rw [operation_of_zero word h0, Format.operation_eq_ok_iff]
    cases hformat : operation.format with
    | register => simp [h0]
    | immediate =>
      have hcode := operation.three_lt_code hformat
      simp only [reduceCtorEq, false_and, false_iff, h0]
      intro hc
      rw [hc] at hcode
      exact absurd hcode (by decide)
  · by_cases h3 : word.opcode ≤ 3
    · rw [operation_of_le word h0 h3]
      cases hformat : operation.format with
      | register => simp [h0]
      | immediate =>
        have hcode := operation.three_lt_code hformat
        simp only [reduceCtorEq, false_iff]
        intro hc
        rw [hc] at hcode
        exact absurd h3 (by simpa using hcode)
    · rw [operation_of_lt word (by simpa using h3), Format.operation_eq_ok_iff]
      cases hformat : operation.format with
      | register => simp [h0]
      | immediate => simp

/-! ## Operands -/

/-- The operands that the text of a word shows in a layout; `label` is the name of the place to
which a branch leads. -/
def operands (word : Word) (label : String) : OperandLayout → List String
  | .registers =>
    [(word.register .rd).name, (word.register .rs).name, (word.register .rt).name]
  | .shift => [(word.register .rd).name, (word.register .rt).name, toString (word.field .shamt)]
  | .immediate => [(word.register .rt).name, (word.register .rs).name, toString word.offset]
  | .memory =>
    [(word.register .rt).name, toString word.offset ++ "(" ++ (word.register .rs).name ++ ")"]
  | .upper => [(word.register .rt).name, toString word.offset]
  | .branch => [(word.register .rs).name, (word.register .rt).name, label]

/-- The register format shows the operands of its two layouts. -/
theorem operands_registerFields (word : Word) (layout : OperandLayout)
    (h : layout = .registers ∨ layout = .shift) :
    word.registerFields.operands layout = .ok (word.operands "" layout) := by
  have hrd := nameOfCode_field word .rd rfl
  have hrs := nameOfCode_field word .rs rfl
  have hrt := nameOfCode_field word .rt rfl
  have hshamt := toNat_ofNat_field word .shamt (by decide)
  rcases h with rfl | rfl
  · simp only [RegisterFields.operands, registerFields, hrd, hrs, hrt]
    rfl
  · simp only [RegisterFields.operands, registerFields, hrd, hrt, hshamt]
    rfl

/-- The immediate format shows the operands of its layouts, those of branches apart. -/
theorem operands_immediateFields (word : Word) (index size : ℕ) (layout : OperandLayout)
    (h : layout = .immediate ∨ layout = .memory ∨ layout = .upper) :
    word.immediateFields.operands index size layout = .ok (word.operands "" layout, none) := by
  have hrs := nameOfCode_field word .rs rfl
  have hrt := nameOfCode_field word .rt rfl
  have himm := word.toInt_imm
  simp only [immediateFields] at himm
  rcases h with rfl | rfl | rfl
  · simp only [ImmediateFields.operands, immediateFields, hrs, hrt, himm]
    rfl
  · simp only [ImmediateFields.operands, immediateFields, hrs, hrt, himm]
    rfl
  · simp only [ImmediateFields.operands, immediateFields, hrt, himm]
    rfl

/-- A branch shows the name of its destination, if it has one. -/
theorem operands_branch (word : Word) (index size : ℕ) :
    word.immediateFields.operands index size .branch = (do
      let target ← branchDestination index word.offset size
      let label ← labelName target
      return (word.operands label .branch, some target)) := by
  have hrs := nameOfCode_field word .rs rfl
  have hrt := nameOfCode_field word .rt rfl
  have himm := word.toInt_imm
  simp only [immediateFields] at himm
  simp only [ImmediateFields.operands, immediateFields, hrs, hrt, himm]
  rfl

end Word

/-! ## Layouts of operations -/

/-- The two layouts of the register format. -/
theorem Operation.layout_of_register (operation : Operation) (h : operation.format = .register) :
    operation.layout = .registers ∨ operation.layout = .shift := by
  revert h
  cases operation <;> decide

/-- The layouts of the immediate format, branches apart. -/
theorem Operation.layout_of_plain (operation : Operation) (h : operation.format = .immediate)
    (hb : operation.isBranch = false) :
    operation.layout = .immediate ∨ operation.layout = .memory ∨ operation.layout = .upper := by
  revert h hb
  cases operation <;> decide

/-- Branches are of the immediate format and have a layout of their own. -/
theorem Operation.layout_of_branch (operation : Operation) (h : operation.isBranch = true) :
    operation.format = .immediate ∧ operation.layout = .branch := by
  revert h
  cases operation <;> decide

/-- Operations of the register format do not branch. -/
theorem Operation.isBranch_of_register (operation : Operation)
    (h : operation.format = .register) : operation.isBranch = false := by
  revert h
  cases operation <;> decide

namespace Instruction

/-! ## Decoding a word -/

/-- A word that selects no operation is refused for that. -/
theorem ofWord_of_error (word : Word) (index size : ℕ) (cause : Refusal)
    (h : word.operation = .error cause) : ofWord word index size = .error cause := by
  by_cases h0 : word.opcode = 0
  · rw [Word.operation_of_zero word h0, Word.funct] at h
    rw [ofWord, Format.ofOpcode, if_pos h0]
    show ofRegisterWord word = _
    simp only [ofRegisterWord, h]
    rfl
  · by_cases h3 : word.opcode ≤ 3
    · rw [Word.operation_of_le word h0 h3] at h
      rw [ofWord, Format.ofOpcode, if_neg h0, if_pos h3, ← Except.error.inj h]
      rfl
    · rw [Word.operation_of_lt word (by simpa using h3)] at h
      rw [ofWord, Format.ofOpcode, if_neg h0, if_neg h3]
      show ofImmediateWord word index size = _
      simp only [ofImmediateWord, show word.immediateFields.opcode = word.opcode from rfl, h]
      rfl

/-- **A word that does not branch** is decoded at every position of every program. -/
theorem ofWord_of_plain (word : Word) (index size : ℕ) (operation : Operation)
    (h : word.operation = .ok operation) (hb : operation.isBranch = false) :
    ofWord word index size = .ok {
      operation, format := operation.format, target := none
      text := instructionText operation.mnemonic (word.operands "" operation.layout) } := by
  have hselect := (word.operation_eq_ok_iff operation).mp h
  cases hformat : operation.format with
  | register =>
    obtain ⟨h0, hcode⟩ : word.opcode = 0 ∧ operation.code = word.funct := by
      simpa only [hformat] using hselect
    have hlookup : Format.register.operation word.registerFields.funct = .ok operation :=
      (Format.operation_eq_ok_iff _ _ _).mpr ⟨hformat, hcode⟩
    have hoperands := word.operands_registerFields _ (operation.layout_of_register hformat)
    rw [ofWord, Format.ofOpcode, if_pos h0]
    show ofRegisterWord word = _
    simp only [ofRegisterWord, RegisterFields.text, hlookup, hoperands, bind, Except.bind]
    rfl
  | immediate =>
    have hcode : operation.code = word.opcode := by simpa only [hformat] using hselect
    have hlookup : Format.immediate.operation word.immediateFields.opcode = .ok operation :=
      (Format.operation_eq_ok_iff _ _ _).mpr ⟨hformat, hcode⟩
    have hoperands := word.operands_immediateFields index size _
      (operation.layout_of_plain hformat hb)
    rw [ofWord, word.ofOpcode_of_operation operation hformat hcode]
    show ofImmediateWord word index size = _
    simp only [ofImmediateWord, ImmediateFields.text, hlookup, hoperands, bind, Except.bind]
    rfl

/-- **A branch** is decoded if its destination lies in the program and has a name. -/
theorem ofWord_of_branch (word : Word) (index size : ℕ) (operation : Operation)
    (h : word.operation = .ok operation) (hb : operation.isBranch = true) :
    ofWord word index size = (do
      let target ← branchDestination index word.offset size
      let label ← labelName target
      return {
        operation, format := operation.format, target := some target
        text := instructionText operation.mnemonic (word.operands label operation.layout) }) := by
  obtain ⟨hformat, hlayout⟩ := operation.layout_of_branch hb
  have hcode : operation.code = word.opcode := by
    simpa only [hformat] using (word.operation_eq_ok_iff operation).mp h
  have hlookup : Format.immediate.operation word.immediateFields.opcode = .ok operation :=
    (Format.operation_eq_ok_iff _ _ _).mpr ⟨hformat, hcode⟩
  rw [ofWord, word.ofOpcode_of_operation operation hformat hcode]
  show ofImmediateWord word index size = _
  simp only [ofImmediateWord, ImmediateFields.text, hlookup, hlayout, hformat,
    word.operands_branch index size, bind, Except.bind]
  -- the two refusals that are left are those of the destination and of its name
  cases branchDestination index word.offset size with
  | error cause => rfl
  | ok target =>
    cases hname : labelName target with
    | error cause => simp only [hname]
    | ok label =>
      simp only [hname]
      rfl

/-! ## The instruction of a word -/

/-- The operand in which an instruction names the place to which it branches. -/
def labelOperand (instruction : Instruction) : String :=
  match instruction.target with
  | none => ""
  | some target => labelText target

/-- An instruction is what a word says at its position in a program. -/
structure DecodedFrom (word : Word) (index size : ℕ) (instruction : Instruction) : Prop where
  operation_eq : word.operation = .ok instruction.operation
  format_eq : instruction.format = instruction.operation.format
  text_eq : instruction.text = instructionText instruction.operation.mnemonic
    (word.operands instruction.labelOperand instruction.operation.layout)
  /-- Only branches have a target. -/
  target_of_plain : instruction.operation.isBranch = false → instruction.target = none
  /-- A branch has a target in the program, and the target has a name. -/
  target_of_branch : instruction.operation.isBranch = true → ∃ target,
    instruction.target = some target ∧ target ≤ 0x3FFF ∧
      branchDestination index word.offset size = .ok target

/-- What decoding gives is what the word says. -/
theorem decodedFrom_of_ofWord (word : Word) (index size : ℕ) (instruction : Instruction)
    (h : ofWord word index size = .ok instruction) :
    DecodedFrom word index size instruction := by
  cases hop : word.operation with
  | error cause =>
    rw [ofWord_of_error word index size cause hop] at h
    simp at h
  | ok operation =>
    cases hb : operation.isBranch with
    | false =>
      rw [ofWord_of_plain word index size operation hop hb] at h
      obtain rfl := Except.ok.inj h
      exact ⟨hop, rfl, rfl, fun _ => rfl, fun hbranch => by simp [hb] at hbranch⟩
    | true =>
      rw [ofWord_of_branch word index size operation hop hb] at h
      cases hdest : branchDestination index word.offset size with
      | error cause => simp [hdest, bind, Except.bind] at h
      | ok target =>
        cases hname : labelName target with
        | error cause => simp [hdest, hname, bind, Except.bind] at h
        | ok label =>
          simp only [hdest, hname, bind, Except.bind] at h
          obtain rfl := Except.ok.inj h
          obtain ⟨hle, rfl⟩ := (labelName_eq_ok_iff target label).mp hname
          exact ⟨hop, rfl, rfl, fun hplain => by simp [hb] at hplain,
            fun _ => ⟨target, rfl, hle, hdest⟩⟩

namespace DecodedFrom

variable {word : Word} {index size : ℕ} {instruction : Instruction}

/-- A target belongs to a branch, has a name, and lies in the program. -/
theorem target_eq_some (h : DecodedFrom word index size instruction) (target : ℕ)
    (ht : instruction.target = some target) :
    instruction.operation.isBranch = true ∧ target ≤ 0x3FFF ∧
      branchDestination index word.offset size = .ok target := by
  cases hb : instruction.operation.isBranch with
  | false =>
    rw [h.target_of_plain hb] at ht
    simp at ht
  | true =>
    obtain ⟨other, hother, hle, hdest⟩ := h.target_of_branch hb
    obtain rfl : other = target := Option.some.inj (hother.symm.trans ht)
    exact ⟨rfl, hle, hdest⟩

/-- A target lies in the program. -/
theorem target_le (h : DecodedFrom word index size instruction) (target : ℕ)
    (ht : instruction.target = some target) : target ≤ size :=
  ((branchDestination_eq_ok_iff _ _ _ _).mp (h.target_eq_some target ht).2.2).2

/-- The text of an instruction with a target: two registers and the name of the target. -/
theorem text_eq_of_target (h : DecodedFrom word index size instruction) (target : ℕ)
    (ht : instruction.target = some target) :
    instruction.text = instructionText instruction.operation.mnemonic
      [(word.register .rs).name, (word.register .rt).name, labelText target] := by
  have hbranch := (h.target_eq_some target ht).1
  have hlabel : instruction.labelOperand = labelText target := by
    rw [labelOperand, ht]
  rw [h.text_eq, (instruction.operation.layout_of_branch hbranch).2, hlabel]
  rfl

end DecodedFrom

end Instruction

end MipsListing
