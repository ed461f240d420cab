/-
# Names of operations and decoded words

The name of an operation is looked up by its codes alone, while a word is decoded by a dispatch
of its own.  The two agree on every word: where the codes select nothing, the word is refused for
the same cause, and where they select an operation, the text of the word begins with the name of
this operation.  Only a branch can still be refused then, for the place to which it leads.

* `Word.mnemonicOf_eq` : the name for the codes of a word;
* `Word.exists_instructionText_eq` : how the text of a word begins;
* `Instruction.refusal_of_operation` : why a word that selects an operation is refused;
* `Instruction.ofWord_agrees_with_name` : names and decoded words.
-/
import MipsListing.Proofs.Instruction

namespace MipsListing

namespace Word

/-! ## Both dispatches -/

/-- The codes of a word have the name of the operation that the word selects. -/
theorem mnemonicOf_eq (word : Word) :
    Operation.mnemonicOf word.opcode (some word.funct)
      = word.operation.map Operation.mnemonic := by
  unfold Operation.mnemonicOf operation
  cases Format.ofOpcode word.opcode with
  | error cause => rfl
  | ok format =>
    cases format with
    | register =>
      show (do return (← Format.register.operation word.funct).mnemonic) = _
      cases Format.register.operation word.funct <;> rfl
    | immediate =>
      show (do return (← Format.immediate.operation word.opcode).mnemonic) = _
      cases Format.immediate.operation word.opcode <;> rfl

/-- The opcode of a word calls for the format of the operation that the word selects. -/
theorem ofOpcode_of_operation_eq (word : Word) (operation : Operation)
    (h : word.operation = .ok operation) : Format.ofOpcode word.opcode = .ok operation.format := by
  have hselect := (word.operation_eq_ok_iff operation).mp h
  cases hformat : operation.format with
  | register =>
    rw [hformat] at hselect
    rw [Format.ofOpcode, if_pos hselect.1]
  | immediate =>
    rw [hformat] at hselect
    exact word.ofOpcode_of_operation operation hformat hselect

/-! ## Operands behind a name -/

/-- The first operand of every layout is a register. -/
theorem exists_operands_eq_cons (word : Word) (label : String) (layout : OperandLayout) :
    ∃ (register : Register) (others : List String),
      word.operands label layout = register.name :: others := by
  cases layout with
  | registers => exact ⟨_, _, rfl⟩
  | shift => exact ⟨_, _, rfl⟩
  | immediate => exact ⟨_, _, rfl⟩
  | memory => exact ⟨_, _, rfl⟩
  | upper => exact ⟨_, _, rfl⟩
  | branch => exact ⟨_, _, rfl⟩

/-- The text of a word is a name, one blank and the operands, which begin with a register. -/
theorem exists_instructionText_eq (word : Word) (mnemonic label : String)
    (layout : OperandLayout) :
    ∃ operands : String, instructionText mnemonic (word.operands label layout)
      = mnemonic ++ " " ++ operands ∧ operands.toList.head? = some '$' := by
  refine ⟨_, rfl, ?_⟩
  obtain ⟨register, others, h⟩ := word.exists_operands_eq_cons label layout
  have hname : ∀ register : Register, register.name.toList.head? = some '$' := by decide
  rw [h]
  by_cases hnil : others = []
  · rw [hnil, String.intercalate_singleton]
    exact hname register
  · rw [String.intercalate_cons_of_ne_nil hnil, String.toList_append, String.toList_append,
      List.append_assoc, List.head?_append, hname register]
    rfl

end Word

namespace Instruction

/-! ## Refusals and names -/

/-- A word that selects an operation is refused only if it branches, out of the program or to a
place without a name. -/
theorem refusal_of_operation (word : Word) (index size : ℕ) (operation : Operation)
    (hop : word.operation = .ok operation) (cause : Refusal)
    (h : ofWord word index size = .error cause) :
    operation.isBranch = true ∧ ((∃ target, cause = .branchOutOfRange target) ∨
      ∃ value field width, cause = .fieldTooWide value field width) := by
  cases hb : operation.isBranch with
  | false =>
    rw [ofWord_of_plain word index size operation hop hb] at h
    simp at h
  | true =>
    refine ⟨rfl, ?_⟩
    rw [ofWord_of_branch word index size operation hop hb] at h
    cases hdest : branchDestination index word.offset size with
    | error other =>
      rw [hdest] at h
      rw [← Except.error.inj h]
      exact Or.inl (branchOutOfRange_of_branchDestination index word.offset size other hdest)
    | ok target =>
      rw [hdest] at h
      cases hname : labelName target with
      | error other =>
        simp only [hname, bind, Except.bind] at h
        rw [← Except.error.inj h]
        exact Or.inr (fieldTooWide_of_labelName target other hname)
      | ok label => simp [hname, bind, Except.bind, pure, Except.pure] at h

/-- Only branches have a target. -/
theorem DecodedFrom.isSome_target {word : Word} {index size : ℕ} {instruction : Instruction}
    (h : DecodedFrom word index size instruction) :
    instruction.target.isSome = instruction.operation.isBranch := by
  cases hb : instruction.operation.isBranch with
  | false => rw [h.target_of_plain hb, Option.isSome_none]
  | true =>
    obtain ⟨target, ht, -⟩ := h.target_of_branch hb
    rw [ht, Option.isSome_some]

/-- **Names and decoded words agree.**  If the codes of a word have no name, the word is refused
for the cause for which the name is.  If they have one, the word is decoded, and then the text
begins with the name and one blank, the format is that of the opcode, and there is a target
exactly if the operation branches; or the word is a branch that is refused, because it leads out
of the program or to a place without a name. -/
theorem ofWord_agrees_with_name (word : Word) (index size : ℕ) :
    (∀ cause, Operation.mnemonicOf word.opcode (some word.funct) = .error cause →
      ofWord word index size = .error cause) ∧
    ∀ mnemonic, Operation.mnemonicOf word.opcode (some word.funct) = .ok mnemonic →
      (∃ instruction operands, ofWord word index size = .ok instruction ∧
        instruction.text = mnemonic ++ " " ++ operands ∧ operands.toList.head? = some '$' ∧
        Format.ofOpcode word.opcode = .ok instruction.format ∧
        instruction.target.isSome = instruction.operation.isBranch) ∨
      ((mnemonic = "beq" ∨ mnemonic = "bne") ∧ ∃ cause, ofWord word index size = .error cause ∧
        ((∃ target, cause = .branchOutOfRange target) ∨
          ∃ value field width, cause = .fieldTooWide value field width)) := by
  rw [word.mnemonicOf_eq]
  cases hop : word.operation with
  | error cause =>
    refine ⟨?_, fun mnemonic h => by simp [Except.map] at h⟩
    intro other h
    rw [← Except.error.inj h]
    exact ofWord_of_error word index size cause hop
  | ok operation =>
    refine ⟨fun cause h => by simp [Except.map] at h, ?_⟩
    intro mnemonic h
    obtain rfl : operation.mnemonic = mnemonic := Except.ok.inj h
    cases hword : ofWord word index size with
    | ok instruction =>
      have hfrom := decodedFrom_of_ofWord word index size instruction hword
      obtain rfl : instruction.operation = operation :=
        Except.ok.inj (hfrom.operation_eq.symm.trans hop)
      obtain ⟨operands, htext, hhead⟩ := word.exists_instructionText_eq
        instruction.operation.mnemonic instruction.labelOperand instruction.operation.layout
      have hformat : Format.ofOpcode word.opcode = .ok instruction.format := by
        rw [hfrom.format_eq]
        exact word.ofOpcode_of_operation_eq _ hop
      exact Or.inl ⟨instruction, operands, rfl, hfrom.text_eq.trans htext, hhead, hformat,
        hfrom.isSome_target⟩
    | error cause =>
      obtain ⟨hb, hcause⟩ := refusal_of_operation word index size operation hop cause hword
      refine Or.inr ⟨?_, cause, rfl, hcause⟩
      revert hb
      cases operation <;> decide

/-- A word of neither format, an addition, and a branch out of its program. -/
theorem ofWord_agrees_with_name_of_three :
    ofWord 0x04000000 0 1 = .error (.unsupportedOpcode 1) ∧
      (∃ instruction operands, ofWord 0x012A4020 0 1 = .ok instruction ∧
        instruction.text = "add" ++ " " ++ operands ∧ operands.toList.head? = some '$' ∧
        Format.ofOpcode 0 = .ok instruction.format ∧
        instruction.target.isSome = instruction.operation.isBranch) ∧
      ∃ cause, ofWord 0x1000FFFD 0 1 = .error cause ∧
        ((∃ target, cause = .branchOutOfRange target) ∨
          ∃ value field width, cause = .fieldTooWide value field width) := by
  have hadd := (ofWord_agrees_with_name 0x012A4020 0 1).2 "add" (by decide)
  have hbeq := (ofWord_agrees_with_name 0x1000FFFD 0 1).2 "beq" (by decide)
  refine ⟨(ofWord_agrees_with_name 0x04000000 0 1).1 _ (by decide), ?_, ?_⟩
  · rcases hadd with hdecoded | ⟨hname, -⟩
    · exact hdecoded
    · exact absurd hname (by decide)
  · rcases hbeq with ⟨instruction, operands, hdecoded, -⟩ | ⟨-, hrefused⟩
    · have hout : ofWord 0x1000FFFD 0 1 = .error (.branchOutOfRange (-2)) := by decide
      rw [hout] at hdecoded
      simp at hdecoded
    · exact hrefused

end Instruction

end MipsListing
