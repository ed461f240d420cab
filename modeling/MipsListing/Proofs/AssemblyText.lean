/-
# The text of an instruction

An instruction is written as a mnemonic, a blank, and operands between commas.  None of these
parts has a blank, a comma or a colon of its own, so the text can be taken apart again, and it is
never mistaken for a label line, which ends with a colon.

* `instructionText_inj` : a text determines its mnemonic and its operands;
* `Word.fields_eq_of_operands_eq` : the operands determine the fields that they show;
* `Decodes.mem_text` : the characters of the texts of a program, of which none is a colon.
-/
import MipsListing.Proofs.Placement

namespace MipsListing

/-! ## Parts without separators -/

/-- A text without the characters that separate the parts of a line. -/
def isToken (text : String) : Bool := text.toList.all fun c => c != ' ' && c != ',' && c != ':'

theorem isToken_iff (text : String) :
    isToken text ↔ ∀ c ∈ text.toList, c ≠ ' ' ∧ c ≠ ',' ∧ c ≠ ':' := by
  simp [isToken, and_assoc]

/-- A character of mnemonics, registers, numbers and names of places. -/
def isPartChar (c : Char) : Bool := c.isAlphanum || ['$', '-', '(', ')', '_'].contains c

/-- A text made of such characters. -/
def isPart (text : String) : Bool := text.toList.all isPartChar

theorem isPart_iff (text : String) : isPart text ↔ ∀ c ∈ text.toList, isPartChar c :=
  List.all_eq_true

theorem isPart_append (a b : String) (ha : isPart a) (hb : isPart b) : isPart (a ++ b) := by
  rw [isPart, String.toList_append, List.all_append, Bool.and_eq_true]
  exact ⟨ha, hb⟩

/-- No separator is a character of a part. -/
theorem isToken_of_isPart (text : String) (h : isPart text) : isToken text := by
  rw [isPart_iff] at h
  rw [isToken_iff]
  intro c hc
  refine ⟨?_, ?_, ?_⟩
  · rintro rfl
    exact absurd (h _ hc) (by decide)
  · rintro rfl
    exact absurd (h _ hc) (by decide)
  · rintro rfl
    exact absurd (h _ hc) (by decide)

/-- Mnemonics are parts. -/
theorem Operation.isPart_mnemonic (operation : Operation) : isPart operation.mnemonic := by
  cases operation <;> decide

/-- Register names are parts. -/
theorem Register.isPart_name : ∀ register : Register, isPart register.name := by
  decide

/-- Digits are characters of parts. -/
theorem isPartChar_of_isDigit (c : Char) (h : c.isDigit) : isPartChar c := by
  simp [isPartChar, Char.isAlphanum, h]

/-- Natural numbers are written as parts. -/
theorem isPart_toString_nat (value : ℕ) : isPart (toString value) := by
  rw [isPart_iff]
  exact fun c hc => isPartChar_of_isDigit c (isDigit_of_mem_toString value c hc)

/-- Integers are written as parts. -/
theorem isPart_toString_int (value : ℤ) : isPart (toString value) := by
  rw [isPart_iff]
  intro c hc
  rcases eq_minus_or_isDigit_of_mem_toString value c hc with rfl | hdigit
  · decide
  · exact isPartChar_of_isDigit c hdigit

/-- Names of places are parts. -/
theorem isPart_labelText (index : ℕ) : isPart (labelText index) := by
  apply isPart_append _ _ (by decide)
  rw [isPart_iff, String.toList_ofList]
  intro c hc
  obtain ⟨d, hd, rfl⟩ := Radix.hexadecimal.exists_digit_of_mem_writePadded 4 (index * 4) c hc
  have hd : d < 16 := hd
  interval_cases d <;> decide

/-- The operands that a word shows are parts. -/
theorem Word.isPart_operands (word : Word) (label : String) (hlabel : isPart label)
    (layout : OperandLayout) : ∀ operand ∈ word.operands label layout, isPart operand := by
  have hname := fun range => Register.isPart_name (word.register range)
  have hoffset := isPart_toString_int word.offset
  have hmemory : ∀ range,
      isPart (toString word.offset ++ "(" ++ (word.register range).name ++ ")") :=
    fun range => isPart_append _ _ (isPart_append _ _ (isPart_append _ _ hoffset (by decide))
      (hname range)) (by decide)
  cases layout with
  | registers => simp [operands, hname]
  | shift => simpa [operands, hname] using isPart_toString_nat (word.field .shamt)
  | immediate => simpa [operands, hname] using hoffset
  | memory => simpa [operands, hname] using hmemory .rs
  | upper => simpa [operands, hname] using hoffset
  | branch => simp [operands, hname, hlabel]

/-! ## Taking a text apart -/

/-- A text cut in two at the first character of a kind. -/
theorem append_cons_inj_of_not_mem {c : Char} {a b x y : List Char} (ha : c ∉ a) (hb : c ∉ b)
    (h : a ++ c :: x = b ++ c :: y) : a = b ∧ x = y := by
  induction a generalizing b with
  | nil =>
    cases b with
    | nil => exact ⟨rfl, by simpa using h⟩
    | cons d b =>
      simp only [List.nil_append, List.cons_append, List.cons.injEq] at h
      exact absurd (h.1 ▸ List.mem_cons_self) hb
  | cons e a ih =>
    cases b with
    | nil =>
      simp only [List.nil_append, List.cons_append, List.cons.injEq] at h
      exact absurd (h.1 ▸ List.mem_cons_self) ha
    | cons d b =>
      simp only [List.cons_append, List.cons.injEq] at h
      obtain ⟨hab, hxy⟩ := ih (fun hc => ha (List.mem_cons_of_mem _ hc))
        (fun hc => hb (List.mem_cons_of_mem _ hc)) h.2
      exact ⟨by rw [h.1, hab], hxy⟩

/-- The mnemonic of a text, and what stands behind it. -/
theorem instructionText_inj (m n : String) (as bs : List String) (hm : isToken m) (hn : isToken n)
    (h : instructionText m as = instructionText n bs) :
    m = n ∧ ", ".intercalate as = ", ".intercalate bs := by
  have hlists := congrArg String.toList h
  simp only [instructionText, String.toList_append, List.append_assoc] at hlists
  obtain ⟨hname, hrest⟩ := append_cons_inj_of_not_mem (c := ' ')
    (fun hc => ((isToken_iff m).mp hm _ hc).1 rfl) (fun hc => ((isToken_iff n).mp hn _ hc).1 rfl)
    hlists
  exact ⟨String.toList_inj.mp hname, String.toList_inj.mp hrest⟩

/-- As many operands on both sides are determined by the text that joins them. -/
theorem operands_eq_of_intercalate_eq (as : List String) :
    ∀ bs : List String, as.length = bs.length → (∀ a ∈ as, isToken a) → (∀ b ∈ bs, isToken b) →
      ", ".intercalate as = ", ".intercalate bs → as = bs := by
  induction as with
  | nil =>
    intro bs hlength _ _ _
    exact (List.length_eq_zero_iff.mp hlength.symm).symm
  | cons a as ih =>
    intro bs hlength has hbs h
    cases bs with
    | nil => simp at hlength
    | cons b bs =>
      have hlength' : as.length = bs.length := by simpa using hlength
      by_cases hnil : as = []
      · subst hnil
        obtain rfl : bs = [] := List.length_eq_zero_iff.mp hlength'.symm
        simpa using h
      · -- the first operands end at the first comma on both sides
        have hnil' : bs ≠ [] := by
          rintro rfl
          exact hnil (List.length_eq_zero_iff.mp hlength')
        rw [String.intercalate_cons_of_ne_nil hnil, String.intercalate_cons_of_ne_nil hnil'] at h
        have hlists := congrArg String.toList h
        simp only [String.toList_append, List.append_assoc] at hlists
        obtain ⟨hhead, htail⟩ := append_cons_inj_of_not_mem (c := ',')
          (fun hc => ((isToken_iff a).mp (has a List.mem_cons_self) _ hc).2.1 rfl)
          (fun hc => ((isToken_iff b).mp (hbs b List.mem_cons_self) _ hc).2.1 rfl) hlists
        have hrest := ih bs hlength' (fun x hx => has x (List.mem_cons_of_mem _ hx))
          (fun x hx => hbs x (List.mem_cons_of_mem _ hx))
          (String.toList_inj.mp (List.cons.inj htail).2)
        rw [String.toList_inj.mp hhead, hrest]

/-- Different operations have different mnemonics. -/
theorem Operation.mnemonic_injective : Function.Injective Operation.mnemonic := by
  have hnodup : ((Format.register.operations ++ Format.immediate.operations).map
      Operation.mnemonic).Nodup := by decide
  intro a b
  -- every operation is in one of the two tables
  exact List.inj_on_of_nodup_map hnodup (by cases a <;> decide) (by cases b <;> decide)

/-! ## The characters of a text -/

/-- The characters of texts between commas are those of the texts, blanks and commas. -/
theorem forall_mem_intercalate (p : Char → Prop) (hcomma : p ',') (hblank : p ' ')
    (operands : List String) (hos : ∀ operand ∈ operands, ∀ c ∈ operand.toList, p c) :
    ∀ c ∈ (", ".intercalate operands).toList, p c := by
  induction operands with
  | nil => simp
  | cons operand operands ih =>
    have hhead := hos operand List.mem_cons_self
    have htail := ih fun o ho => hos o (List.mem_cons_of_mem _ ho)
    by_cases hnil : operands = []
    · rw [hnil, String.intercalate_singleton]
      exact hhead
    · rw [String.intercalate_cons_of_ne_nil hnil, String.toList_append, String.toList_append]
      simp only [List.forall_mem_append]
      exact ⟨⟨hhead, by simp [hcomma, hblank]⟩, htail⟩

/-- The characters of an instruction text are those of its parts, blanks and commas. -/
theorem forall_mem_instructionText (p : Char → Prop) (hcomma : p ',') (hblank : p ' ')
    (mnemonic : String) (operands : List String) (hm : ∀ c ∈ mnemonic.toList, p c)
    (hos : ∀ operand ∈ operands, ∀ c ∈ operand.toList, p c) :
    ∀ c ∈ (instructionText mnemonic operands).toList, p c := by
  rw [instructionText, String.toList_append, String.toList_append]
  simp only [List.forall_mem_append]
  exact ⟨⟨hm, by simp [hblank]⟩, forall_mem_intercalate p hcomma hblank operands hos⟩

/-! ## Operands and the fields behind them -/

/-- The fields that the operands of a layout show. -/
def OperandLayout.fields : OperandLayout → List BitRange
  | .registers => [.rd, .rs, .rt]
  | .shift => [.rd, .rt, .shamt]
  | .immediate => [.rt, .rs, .imm]
  | .memory => [.rt, .rs, .imm]
  | .upper => [.rt, .imm]
  | .branch => [.rs, .rt, .imm]

namespace Word

/-- A field is shown by the name of the register that it selects. -/
theorem field_eq_of_name_eq (a b : Word) (range : BitRange) (h : range.size = 5)
    (hname : (a.register range).name = (b.register range).name) :
    a.field range = b.field range :=
  field_eq_of_register_eq a b range h (Register.name_injective hname)

/-- An immediate is shown by its signed number. -/
theorem field_eq_of_toString_offset_eq (a b : Word) (h : toString a.offset = toString b.offset) :
    a.field .imm = b.field .imm := by
  rw [Int.toString_eq_repr, Int.toString_eq_repr] at h
  exact field_imm_eq_of_offset_eq a b (Int.repr_injective h)

/-- An operand in memory shows its offset and its base. -/
theorem memoryOperand_inj (m n : ℤ) (r s : String)
    (h : toString m ++ "(" ++ r ++ ")" = toString n ++ "(" ++ s ++ ")") :
    toString m = toString n ∧ r = s := by
  have hparen : ∀ value : ℤ, '(' ∉ (toString value).toList := by
    intro value hc
    rcases eq_minus_or_isDigit_of_mem_toString value '(' hc with hc | hc
    · exact absurd hc (by decide)
    · exact absurd hc (by decide)
  have hlists := congrArg String.toList ((String.append_left_inj ")").mp h)
  simp only [String.toList_append, List.append_assoc] at hlists
  obtain ⟨hoffset, hbase⟩ := append_cons_inj_of_not_mem (c := '(') (hparen m) (hparen n) hlists
  exact ⟨String.toList_inj.mp hoffset, String.toList_inj.mp hbase⟩

/-- **Operands determine the fields that they show**, in all layouts but that of branches. -/
theorem fields_eq_of_operands_eq (a b : Word) (k l : String) (layout : OperandLayout)
    (hplain : layout ≠ .branch) (h : a.operands k layout = b.operands l layout) :
    ∀ range ∈ layout.fields, a.field range = b.field range := by
  have hreg := fun range hsize => field_eq_of_name_eq a b range hsize
  cases layout with
  | registers =>
    simp only [operands, List.cons.injEq, and_true] at h
    simp [OperandLayout.fields, hreg .rd rfl h.1, hreg .rs rfl h.2.1, hreg .rt rfl h.2.2]
  | shift =>
    simp only [operands, List.cons.injEq, and_true] at h
    have hshamt : a.field .shamt = b.field .shamt := by
      apply Nat.repr_injective
      simpa only [Nat.toString_eq_repr] using h.2.2
    simp [OperandLayout.fields, hreg .rd rfl h.1, hreg .rt rfl h.2.1, hshamt]
  | immediate =>
    simp only [operands, List.cons.injEq, and_true] at h
    have himm := field_eq_of_toString_offset_eq a b h.2.2
    simp [OperandLayout.fields, hreg .rt rfl h.1, hreg .rs rfl h.2.1, himm]
  | memory =>
    simp only [operands, List.cons.injEq, and_true] at h
    obtain ⟨hoffset, hbase⟩ := memoryOperand_inj _ _ _ _ h.2
    have himm := field_eq_of_toString_offset_eq a b hoffset
    simp [OperandLayout.fields, hreg .rt rfl h.1, hreg .rs rfl hbase, himm]
  | upper =>
    simp only [operands, List.cons.injEq, and_true] at h
    have himm := field_eq_of_toString_offset_eq a b h.2
    simp [OperandLayout.fields, hreg .rt rfl h.1, himm]
  | branch => exact absurd rfl hplain

/-- The operands of a branch show two registers and the name of its destination. -/
theorem fields_eq_of_operands_branch_eq (a b : Word) (k l : String)
    (h : a.operands k .branch = b.operands l .branch) :
    a.field .rs = b.field .rs ∧ a.field .rt = b.field .rt ∧ k = l := by
  simp only [operands, List.cons.injEq, and_true] at h
  exact ⟨field_eq_of_name_eq a b .rs rfl h.1, field_eq_of_name_eq a b .rt rfl h.2.1, h.2.2⟩

/-- The fields that a layout shows determine the operands. -/
theorem operands_eq_of_fields_eq (a b : Word) (label : String) (layout : OperandLayout)
    (h : ∀ range ∈ layout.fields, a.field range = b.field range) :
    a.operands label layout = b.operands label layout := by
  have hoffset : a.field .imm = b.field .imm → a.offset = b.offset := fun himm =>
    congrArg BitVec.toInt (BitVec.toNat_inj.mp himm)
  cases layout with
  | registers => simp_all [OperandLayout.fields, operands, register]
  | shift => simp_all [OperandLayout.fields, operands, register]
  | immediate => simp_all [OperandLayout.fields, operands, register]
  | memory => simp_all [OperandLayout.fields, operands, register]
  | upper => simp_all [OperandLayout.fields, operands, register]
  | branch => simp_all [OperandLayout.fields, operands, register]

/-- A layout has as many operands in every word. -/
theorem length_operands (a b : Word) (k l : String) (layout : OperandLayout) :
    (a.operands k layout).length = (b.operands l layout).length := by
  cases layout <;> rfl

end Word

/-! ## The text of a decoded word -/

/-- The operands that a word shows in an instruction are parts. -/
theorem Instruction.isPart_operands (instruction : Instruction) (word : Word)
    (layout : OperandLayout) :
    ∀ operand ∈ word.operands instruction.labelOperand layout, isPart operand := by
  apply word.isPart_operands
  unfold labelOperand
  split
  · decide
  · exact isPart_labelText _

namespace Instruction.DecodedFrom

variable {word : Word} {index size : ℕ} {instruction : Instruction}

/-- The characters of the text of a decoded word. -/
theorem mem_text (h : DecodedFrom word index size instruction) :
    ∀ c ∈ instruction.text.toList, isPartChar c ∨ c = ',' ∨ c = ' ' := by
  rw [h.text_eq]
  refine forall_mem_instructionText _ (.inr (.inl rfl)) (.inr (.inr rfl)) _ _ ?_ ?_
  · exact fun c hc => .inl ((isPart_iff _).mp (Operation.isPart_mnemonic _) c hc)
  · exact fun operand ho c hc =>
      .inl ((isPart_iff _).mp (instruction.isPart_operands word _ operand ho) c hc)

/-- The text of a decoded word is not empty. -/
theorem toList_text_ne_nil (h : DecodedFrom word index size instruction) :
    instruction.text.toList ≠ [] := by
  rw [h.text_eq, instructionText]
  simp

/-- Texts that are equal have the same operation and the same operands. -/
theorem operands_eq_of_text_eq {a b : Word} {x y : Instruction}
    (hx : DecodedFrom a index size x) (hy : DecodedFrom b index size y) (h : x.text = y.text) :
    x.operation = y.operation ∧
      a.operands x.labelOperand x.operation.layout
        = b.operands y.labelOperand x.operation.layout := by
  rw [hx.text_eq, hy.text_eq] at h
  have htoken := fun operation : Operation => isToken_of_isPart _ operation.isPart_mnemonic
  obtain ⟨hmnemonic, hjoined⟩ := instructionText_inj _ _ _ _ (htoken _) (htoken _) h
  have hop : x.operation = y.operation := Operation.mnemonic_injective hmnemonic
  rw [← hop] at hjoined
  exact ⟨hop, operands_eq_of_intercalate_eq _ _ (Word.length_operands a b _ _ _)
    (fun o ho => isToken_of_isPart o (x.isPart_operands a _ o ho))
    (fun o ho => isToken_of_isPart o (y.isPart_operands b _ o ho)) hjoined⟩

end Instruction.DecodedFrom

/-- The characters of the texts of a decoded program. -/
theorem Decodes.mem_text {program : List Word} {instructions : List Instruction}
    (h : Decodes Instruction.ofWord program instructions) (instruction : Instruction)
    (hmem : instruction ∈ instructions) :
    ∀ c ∈ instruction.text.toList, isPartChar c ∨ c = ',' ∨ c = ' ' := by
  obtain ⟨i, hi, rfl⟩ := List.getElem_of_mem hmem
  exact (h.decodedFrom i (by rwa [← h.length_eq]) hi).mem_text

/-- The texts of a decoded program are not empty and have no colon. -/
theorem Decodes.text_of_mem {program : List Word} {instructions : List Instruction}
    (h : Decodes Instruction.ofWord program instructions) (instruction : Instruction)
    (hmem : instruction ∈ instructions) :
    instruction.text.toList ≠ [] ∧ ':' ∉ instruction.text.toList := by
  constructor
  · obtain ⟨i, hi, rfl⟩ := List.getElem_of_mem hmem
    exact (h.decodedFrom i (by rwa [← h.length_eq]) hi).toList_text_ne_nil
  · exact fun hc => absurd (h.mem_text instruction hmem _ hc) (by decide)

end MipsListing
