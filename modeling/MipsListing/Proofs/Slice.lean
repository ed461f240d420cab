/-
# Slices of the binary text

The binary text of a word shows its bits in the order in which they are numbered, so a range of
bits is a slice of the text, and the field of the range is the number that the slice stands for.
What holds of texts then holds of fields: the fields of adjacent ranges are joined as their slices
are, and a signed field is read from the slice in two's complement.  As the fields of a format
cover all bits, a word is known by its fields in either format.

* `Word.slice` : the slice for a range of bits;
* `Word.valueOf_slice` : a field is the value of its slice;
* `Word.field_join` : fields of adjacent ranges;
* `Word.registerFields_injective`, `Word.immediateFields_injective` : words with the same fields;
* `Word.field_refines_slice` : fields and slices.
-/
import MipsListing.Proofs.Field
import MipsListing.Proofs.SignedField
import MipsListing.Proofs.WordText

namespace MipsListing

open Radix (binary)

/-- A range and the one behind it, as one range. -/
def BitRange.join (left right : BitRange) (h : left.stop = right.start) : BitRange where
  start := left.start
  stop := right.stop
  start_lt_stop := lt_trans left.start_lt_stop (h ▸ right.start_lt_stop)
  stop_le := right.stop_le

/-- A joined range has as many bits as its parts together. -/
theorem BitRange.size_join (left right : BitRange) (h : left.stop = right.start) :
    (left.join right h).size = left.size + right.size := by
  have hleft := left.start_lt_stop
  have hright := right.start_lt_stop
  simp only [size, join]
  omega

namespace Word

/-! ## Slices -/

/-- The characters of the binary text of a word that stand for the bits of a range. -/
def slice (word : Word) (range : BitRange) : String :=
  String.ofList ((word.toBinary.toList.drop range.start).take range.size)

/-- The binary text stands for the number of the word. -/
theorem valueOf_toBinary (word : Word) : binary.valueOf word.toBinary.toList = word.toNat :=
  (binary.isField_writePadded 32 word.toNat (by decide) word.isLt).valueOf_eq

/-- A slice has one character for each bit. -/
theorem length_slice (word : Word) (range : BitRange) : (word.slice range).length = range.size := by
  have hlength : word.toBinary.toList.length = 32 := by
    rw [String.length_toList]
    exact word.isBinary_toBinary.1
  have hlt := range.start_lt_stop
  have hle := range.stop_le
  rw [slice, String.length_ofList, List.length_take, List.length_drop, hlength, BitRange.size]
  omega

/-- A slice is a binary numeral. -/
theorem isNumeral_slice (word : Word) (range : BitRange) : binary.IsNumeral (word.slice range) := by
  constructor
  · have hlt := range.start_lt_stop
    rw [← List.length_pos_iff, String.length_toList, length_slice, BitRange.size]
    omega
  · intro c hc
    rw [slice, String.toList_ofList] at hc
    exact word.isBinary_toBinary.2 c (List.mem_of_mem_drop (List.mem_of_mem_take hc))

/-- The binary text is a slice with the text in front of it and the text behind it. -/
theorem toList_toBinary_eq (word : Word) (range : BitRange) :
    word.toBinary.toList = word.toBinary.toList.take range.start
      ++ ((word.slice range).toList ++ word.toBinary.toList.drop range.stop) := by
  have hstop : range.stop = range.start + range.size := by
    have hlt := range.start_lt_stop
    rw [BitRange.size]
    omega
  rw [slice, String.toList_ofList, hstop, ← List.drop_drop, List.take_append_drop,
    List.take_append_drop]

/-- **A field is the value of its slice.** -/
theorem valueOf_slice (word : Word) (range : BitRange) :
    binary.valueOf (word.slice range).toList = word.field range := by
  let front := word.toBinary.toList.take range.start
  let back := word.toBinary.toList.drop range.stop
  have hback : back.length = 32 - range.stop := by
    rw [List.length_drop, String.length_toList, word.isBinary_toBinary.1]
  -- what stands behind the slice is less than the unit of its last digit, and what stands in front
  -- of it is a multiple of the power for its length
  have hbelow : binary.valueOf back < 2 ^ (32 - range.stop) := by
    rw [← hback]
    exact binary.valueOf_lt back fun c hc =>
      word.isBinary_toBinary.isSome_digit? c (List.mem_of_mem_drop hc)
  have hslice : binary.valueOf (word.slice range).toList < 2 ^ range.size := by
    rw [← word.length_slice range, ← String.length_toList]
    exact binary.valueOf_lt _ (word.isNumeral_slice range).isSome_digit?
  have hnumber : word.toNat
      = (binary.valueOf front * 2 ^ range.size + binary.valueOf (word.slice range).toList)
        * 2 ^ (32 - range.stop) + binary.valueOf back := by
    rw [← word.valueOf_toBinary, word.toList_toBinary_eq range, ← List.append_assoc,
      Radix.valueOf_append, Radix.valueOf_append, String.length_toList, length_slice, hback]
    rfl
  rw [field_eq_div_mod, hnumber, Nat.add_comm _ (binary.valueOf back),
    Nat.add_mul_div_right _ _ (Nat.two_pow_pos _), Nat.div_eq_of_lt hbelow, Nat.zero_add,
    Nat.add_comm, Nat.add_mul_mod_self_right, Nat.mod_eq_of_lt hslice]

/-- The slice for a joined range is the slices for its parts, one behind the other. -/
theorem toList_slice_join (word : Word) (left right : BitRange) (h : left.stop = right.start) :
    (word.slice (left.join right h)).toList
      = (word.slice left).toList ++ (word.slice right).toList := by
  have hstart : right.start = left.start + left.size := by
    have hlt := left.start_lt_stop
    rw [BitRange.size]
    omega
  have hjoin : (left.join right h).start = left.start := rfl
  simp only [slice, String.toList_ofList]
  rw [BitRange.size_join, List.take_add, List.drop_drop, hjoin, ← hstart]

/-- **The field of a joined range** has the bits of its left part above those of its right one. -/
theorem field_join (word : Word) (left right : BitRange) (h : left.stop = right.start) :
    word.field (left.join right h) = word.field left * 2 ^ right.size + word.field right := by
  rw [← valueOf_slice, toList_slice_join, Radix.valueOf_append, valueOf_slice, valueOf_slice,
    String.length_toList, length_slice]
  rfl

/-! ## Fields of a format -/

/-- Fields of at most eight bits are equal if the bytes that keep them are. -/
theorem field_eq_of_ofNat_eq (a b : Word) (range : BitRange) (hsize : range.size ≤ 8)
    (h : UInt8.ofNat (a.field range) = UInt8.ofNat (b.field range)) :
    a.field range = b.field range := by
  rw [← a.toNat_ofNat_field range hsize, h, b.toNat_ofNat_field range hsize]

/-- A word is known by its fields in the register format. -/
theorem registerFields_injective : Function.Injective registerFields := by
  intro a b h
  apply eq_of_cover a b [.opcode, .rs, .rt, .rd, .shamt, .funct]
  · intro i hi
    interval_cases i <;> decide
  · intro range hrange
    simp only [List.mem_cons, List.not_mem_nil, or_false] at hrange
    rcases hrange with rfl | rfl | rfl | rfl | rfl | rfl
    · exact field_eq_of_ofNat_eq a b _ (by decide) (congrArg RegisterFields.opcode h)
    · exact field_eq_of_ofNat_eq a b _ (by decide) (congrArg RegisterFields.rs h)
    · exact field_eq_of_ofNat_eq a b _ (by decide) (congrArg RegisterFields.rt h)
    · exact field_eq_of_ofNat_eq a b _ (by decide) (congrArg RegisterFields.rd h)
    · exact field_eq_of_ofNat_eq a b _ (by decide) (congrArg RegisterFields.shamt h)
    · exact field_eq_of_ofNat_eq a b _ (by decide) (congrArg RegisterFields.funct h)

/-- A word is known by its fields in the immediate format. -/
theorem immediateFields_injective : Function.Injective immediateFields := by
  intro a b h
  apply eq_of_cover a b [.opcode, .rs, .rt, .imm]
  · intro i hi
    interval_cases i <;> decide
  · intro range hrange
    simp only [List.mem_cons, List.not_mem_nil, or_false] at hrange
    rcases hrange with rfl | rfl | rfl | rfl
    · exact field_eq_of_ofNat_eq a b _ (by decide) (congrArg ImmediateFields.opcode h)
    · exact field_eq_of_ofNat_eq a b _ (by decide) (congrArg ImmediateFields.rs h)
    · exact field_eq_of_ofNat_eq a b _ (by decide) (congrArg ImmediateFields.rt h)
    · apply field_imm_eq_of_offset_eq
      rw [← a.toInt_imm, ← b.toInt_imm, h]

/-! ## Fields and slices -/

/-- The slice for a range is read as the field of the range. -/
theorem unsignedBits_slice (word : Word) (range : BitRange) :
    unsignedBits (word.slice range) = .ok (word.field range) := by
  have hsize : range.size ≤ 32 := le_trans (Nat.sub_le _ _) range.stop_le
  have hlength : (word.slice range).length ≤ 64 := by
    rw [length_slice]
    omega
  have hsmall : word.field range < 2 ^ 63 :=
    lt_of_lt_of_le (word.field_lt range) (Nat.pow_le_pow_right (by decide) (by omega))
  rw [unsignedBits_of_isNumeral _ (word.isNumeral_slice range) hlength, valueOf_slice,
    if_pos hsmall]

/-- The slice for the immediate is read in two's complement as the immediate. -/
theorem signedBits_slice_imm (word : Word) :
    signedBits (word.slice .imm) = .ok word.immediateFields.imm.toInt := by
  have hlength : (word.slice .imm).length = 16 := word.length_slice .imm
  have hnumeral := word.isNumeral_slice .imm
  rw [signedBits_of_isNumeral _ hnumeral (by omega),
    ← twosComplement_valueOf _ hnumeral (by omega), hlength, valueOf_slice,
    twosComplement_field_imm, toInt_imm]

/-- **Fields are slices of the binary text.**  In every word the field of every range of bits is
the unsigned number that the slice for the range stands for.  So the fields of adjacent ranges
make up the field of the joined range, the immediate is the signed number of its slice, and
neither format takes two words apart into the same fields. -/
theorem field_refines_slice (word : Word) :
    (∀ range, unsignedBits (word.slice range) = .ok (word.field range)) ∧
    (∀ (left right : BitRange) (h : left.stop = right.start),
      word.field (left.join right h) = word.field left * 2 ^ right.size + word.field right) ∧
    signedBits (word.slice .imm) = .ok word.immediateFields.imm.toInt ∧
    ∀ other : Word,
      (other.registerFields = word.registerFields ↔ other = word) ∧
      (other.immediateFields = word.immediateFields ↔ other = word) :=
  ⟨word.unsignedBits_slice, word.field_join, word.signedBits_slice_imm, fun _ =>
    ⟨registerFields_injective.eq_iff, immediateFields_injective.eq_iff⟩⟩

/-- The load of a word four bytes below a register: its opcode, the opcode and the first register
behind it, and its offset. -/
theorem field_refines_slice_of_load :
    unsignedBits "100011" = .ok (Word.field 0x8FA8FFFC .opcode) ∧
      Word.field 0x8FA8FFFC (BitRange.opcode.join .rs rfl) = 35 * 2 ^ 5 + 29 ∧
      signedBits "1111111111111100" = .ok (-4) ∧
      Word.immediateFields 0x8FA8FFFC ≠ Word.immediateFields 0x8FA80004 := by
  obtain ⟨hfield, hjoin, himm, hknown⟩ := field_refines_slice 0x8FA8FFFC
  refine ⟨hfield .opcode, hjoin .opcode .rs rfl, himm, fun h => ?_⟩
  exact absurd ((hknown 0x8FA80004).2.mp h.symm) (by decide)

end Word

end MipsListing
