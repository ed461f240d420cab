/-
# Bits and fields of a word

A field is a matter of the bits in its range, so a word may be compared with another field by
field or bit by bit.  Setting the bits of a field to zero leaves all other fields as they are.

* `Word.field_eq_field_iff` : words that agree in a field;
* `Word.clear_eq_clear_iff` : words that agree outside a field;
* `Word.nameOfCode_field` : a field of five bits always names a register.
-/
import MipsListing.Instruction
import MipsListing.Proofs.SignExtension

namespace MipsListing

namespace Word

/-! ## Bits -/

/-- The bits of a field, counted from its last one. -/
theorem getLsbD_field (word : Word) (range : BitRange) (i : ℕ) (hi : i < range.size) :
    (word.extractLsb' (32 - range.stop) range.size).getLsbD i
      = word.getMsbD (range.stop - 1 - i) := by
  have hlt := range.start_lt_stop
  have hle := range.stop_le
  rw [BitRange.size] at hi
  rw [BitVec.getLsbD_extractLsb', BitVec.getMsbD_eq_getLsbD]
  simp only [BitRange.size, hi, decide_true, Bool.true_and,
    show range.stop - 1 - i < 32 from by omega,
    show 32 - 1 - (range.stop - 1 - i) = 32 - range.stop + i from by omega]

/-- Words agree in a field exactly if they agree in each of its bits. -/
theorem field_eq_field_iff (a b : Word) (range : BitRange) :
    a.field range = b.field range ↔
      ∀ i, range.start ≤ i → i < range.stop → a.getMsbD i = b.getMsbD i := by
  have hlt := range.start_lt_stop
  unfold field
  rw [BitVec.toNat_inj]
  constructor
  · -- bits of the word are counted from the first one, bits of a field from its last one
    intro h i hi hi'
    have hbit := congrArg (fun x => BitVec.getLsbD x (range.stop - 1 - i)) h
    have hin : range.stop - 1 - i < range.size := by
      rw [BitRange.size]
      omega
    simp only [getLsbD_field _ _ _ hin] at hbit
    rwa [show range.stop - 1 - (range.stop - 1 - i) = i from by omega] at hbit
  · intro h
    apply BitVec.eq_of_getLsbD_eq
    intro i hi
    rw [getLsbD_field a range i hi, getLsbD_field b range i hi]
    rw [BitRange.size] at hi
    exact h _ (by omega) (by omega)

/-- A field is smaller than the power of two for its number of bits. -/
theorem field_lt (word : Word) (range : BitRange) : word.field range < 2 ^ range.size :=
  BitVec.isLt _

/-- A field is cut out of the number of its word. -/
theorem field_eq_div_mod (word : Word) (range : BitRange) :
    word.field range = word.toNat / 2 ^ (32 - range.stop) % 2 ^ range.size := by
  rw [field, BitVec.extractLsb'_toNat, Nat.shiftRight_eq_div_pow]

/-- A field of at most eight bits is kept by a byte. -/
theorem toNat_ofNat_field (word : Word) (range : BitRange) (h : range.size ≤ 8) :
    (UInt8.ofNat (word.field range)).toNat = word.field range := by
  apply UInt8.toNat_ofNat_of_lt'
  calc word.field range < 2 ^ range.size := word.field_lt range
    _ ≤ 2 ^ 8 := Nat.pow_le_pow_right (by decide) h

/-! ## Clearing a field -/

/-- A word with the bits of a field set to zero. -/
def clear (word : Word) (range : BitRange) : Word :=
  word &&& ~~~((BitVec.allOnes range.size).setWidth 32 <<< (32 - range.stop))

/-- Clearing a field clears the bits of its range and no others. -/
theorem getMsbD_clear (word : Word) (range : BitRange) (i : ℕ) (hi : i < 32) :
    (word.clear range).getMsbD i
      = (word.getMsbD i && !decide (range.start ≤ i ∧ i < range.stop)) := by
  have hlt := range.start_lt_stop
  have hle := range.stop_le
  unfold clear
  rw [BitVec.getMsbD_and, BitVec.getMsbD_not]
  congr 1
  rw [BitVec.getMsbD_eq_getLsbD, BitVec.getLsbD_shiftLeft, BitVec.getLsbD_setWidth,
    BitVec.getLsbD_allOnes, BitRange.size]
  by_cases hin : range.start ≤ i ∧ i < range.stop
  · simp [hin, hi, show ¬ 32 - 1 - i < 32 - range.stop from by omega]
    omega
  · simp [hin, hi]
    omega

/-- Words agree after a field is cleared exactly if they agree in every bit outside it. -/
theorem clear_eq_clear_iff (a b : Word) (range : BitRange) :
    a.clear range = b.clear range ↔
      ∀ i, i < 32 → i < range.start ∨ range.stop ≤ i → a.getMsbD i = b.getMsbD i := by
  constructor
  · intro h i hi hout
    have hbit := congrArg (fun word => BitVec.getMsbD word i) h
    simp only [getMsbD_clear _ _ _ hi] at hbit
    simpa [show ¬ (range.start ≤ i ∧ i < range.stop) from by omega] using hbit
  · intro h
    apply BitVec.eq_of_getMsbD_eq
    intro i hi
    rw [getMsbD_clear a range i hi, getMsbD_clear b range i hi]
    by_cases hin : range.start ≤ i ∧ i < range.stop
    · simp [hin]
    · rw [h i hi (by omega)]

/-- Clearing a field leaves the fields beside it as they are. -/
theorem field_clear (word : Word) (range other : BitRange)
    (h : other.stop ≤ range.start ∨ range.stop ≤ other.start) :
    (word.clear range).field other = word.field other := by
  have hle := other.stop_le
  rw [field_eq_field_iff]
  intro i hi hi'
  rw [getMsbD_clear word range i (by omega)]
  simp [show ¬ (range.start ≤ i ∧ i < range.stop) from by omega]

/-- Words agree outside a field if they agree in fields that cover all bits outside it. -/
theorem clear_eq_clear_of_cover (a b : Word) (range : BitRange) (ranges : List BitRange)
    (hcover : ∀ i, i < 32 → (range.start ≤ i ∧ i < range.stop) ∨
      ∃ other ∈ ranges, other.start ≤ i ∧ i < other.stop)
    (h : ∀ other ∈ ranges, a.field other = b.field other) : a.clear range = b.clear range := by
  rw [clear_eq_clear_iff]
  intro i hi hout
  obtain ⟨other, hmem, hlow, hhigh⟩ := (hcover i hi).resolve_left (by omega)
  exact (field_eq_field_iff a b other).mp (h other hmem) i hlow hhigh

/-- Words are equal if they agree in fields that cover all bits. -/
theorem eq_of_cover (a b : Word) (ranges : List BitRange)
    (hcover : ∀ i, i < 32 → ∃ range ∈ ranges, range.start ≤ i ∧ i < range.stop)
    (h : ∀ range ∈ ranges, a.field range = b.field range) : a = b := by
  apply BitVec.eq_of_getMsbD_eq
  intro i hi
  obtain ⟨range, hmem, hlow, hhigh⟩ := hcover i hi
  exact (field_eq_field_iff a b range).mp (h range hmem) i hlow hhigh

/-! ## Registers and offsets -/

/-- The register that a field of five bits selects. -/
def register (word : Word) (range : BitRange) : Register := Fin.ofNat 32 (word.field range)

/-- A field of five bits always names a register. -/
theorem nameOfCode_field (word : Word) (range : BitRange) (h : range.size = 5) :
    Register.nameOfCode (UInt8.ofNat (word.field range)).toNat
      = .ok (word.register range).name := by
  have hlt := word.field_lt range
  rw [h] at hlt
  have hcode : word.field range < 32 := by simpa using hlt
  rw [toNat_ofNat_field word range (by omega), Register.nameOfCode, Register.ofCode?,
    dif_pos hcode]
  have : (⟨word.field range, hcode⟩ : Register) = word.register range := by
    apply Fin.ext
    simp [register, Nat.mod_eq_of_lt hcode]
  rw [this]

/-- Words that select the same register agree in the field. -/
theorem field_eq_of_register_eq (a b : Word) (range : BitRange) (h : range.size = 5)
    (heq : a.register range = b.register range) : a.field range = b.field range := by
  have ha := a.field_lt range
  have hb := b.field_lt range
  rw [h] at ha hb
  have hmod := congrArg Fin.val heq
  simp only [register, Fin.val_ofNat] at hmod
  omega

/-- The signed number in the low half of a word. -/
def offset (word : Word) : ℤ := (word.extractLsb' 0 16).toInt

/-- The immediate field stands for the offset in two's complement. -/
theorem twosComplement_field_imm (word : Word) :
    twosComplement (word.field .imm) 16 = word.offset := by
  rw [twosComplement_eq_iff]
  exact ⟨⟨BitVec.le_toInt _, BitVec.toInt_lt⟩, toInt_modEq _⟩

/-- The immediate of a word is the signed number in its low half. -/
theorem toInt_imm (word : Word) : word.immediateFields.imm.toInt = word.offset := by
  have hlow := BitVec.le_toInt (word.extractLsb' 0 16)
  have hhigh := BitVec.toInt_lt (x := word.extractLsb' 0 16)
  rw [← offset] at hlow hhigh
  show (Int32.ofInt (twosComplement (word.field .imm) 16)).toInt = _
  rw [twosComplement_field_imm]
  exact Int32.toInt_ofInt_of_le (by omega) (by omega)

/-- Words with the same offset agree in the immediate. -/
theorem field_imm_eq_of_offset_eq (a b : Word) (h : a.offset = b.offset) :
    a.field .imm = b.field .imm :=
  congrArg BitVec.toNat (BitVec.toInt_inj.mp h)

end Word

/-- Different registers have different names. -/
theorem Register.name_injective : Function.Injective Register.name := by
  have hnodup : Register.names.Nodup := by decide
  intro a b h
  exact Fin.ext (congrArg Fin.val (hnodup.injective_get h))

end MipsListing
