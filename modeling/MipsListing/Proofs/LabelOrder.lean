/-
# The order of names

Positions are named in their order: of two positions with names the lower one has the name that
comes first when texts are compared byte by byte.  For numerals of one length this holds because
the digit for a greater value also has a greater character, letters coming behind the decimal
digits, and for ASCII texts the order of the bytes is that of the characters.

* `Radix.lt_of_valueOf_lt` : numerals of one length are ordered by their values;
* `utf8Bytes_lt_iff` : the bytes of ASCII texts are ordered as the texts are;
* `labelName_embeds_order` : which positions have names, what these show, and how they are ordered.
-/
import MipsListing.Proofs.Label

namespace MipsListing

/-! ## Numerals -/

namespace Radix

/-- The digit for a greater value has a greater character. -/
theorem digitChar_lt_digitChar : ∀ d < 16, ∀ e < 16, d < e →
    d.digitChar.toUpper < e.digitChar.toUpper := by
  decide

/-- A text of digits with uppercase letters, as numerals are written. -/
def IsWritten (radix : Radix) (text : List Char) : Prop :=
  ∀ c ∈ text, ∃ d < radix.base, c = d.digitChar.toUpper

/-- What is written can be read. -/
theorem IsWritten.isSome_digit? {radix : Radix} {text : List Char} (h : radix.IsWritten text) :
    ∀ c ∈ text, (radix.digit? c).isSome := by
  intro c hc
  obtain ⟨d, hd, rfl⟩ := h c hc
  rw [radix.digit?_toUpper_digitChar d hd]
  rfl

/-- Of two numerals of one length the one with the smaller value comes first. -/
theorem lt_of_valueOf_lt (radix : Radix) (a b : List Char) (ha : radix.IsWritten a)
    (hb : radix.IsWritten b) (hlength : a.length = b.length)
    (h : radix.valueOf a < radix.valueOf b) : a < b := by
  induction a generalizing b with
  | nil =>
    rw [List.eq_nil_of_length_eq_zero hlength.symm] at h
    exact absurd h (lt_irrefl _)
  | cons x xs ih =>
    cases b with
    | nil => simp at hlength
    | cons y ys =>
      obtain ⟨⟨d, hd, rfl⟩, hxs⟩ := List.forall_mem_cons.mp ha
      obtain ⟨⟨e, he, rfl⟩, hys⟩ := List.forall_mem_cons.mp hb
      have hrest : xs.length = ys.length := Nat.succ.inj hlength
      have hbelow := radix.valueOf_lt ys (IsWritten.isSome_digit? hys)
      rw [valueOf_cons, valueOf_cons, radix.digit?_toUpper_digitChar d hd,
        radix.digit?_toUpper_digitChar e he, Option.getD_some, Option.getD_some, hrest] at h
      rw [List.cons_lt_cons_iff]
      -- the first place with different digits decides, in the values as in the texts
      rcases lt_trichotomy d e with hlt | rfl | hgt
      · exact Or.inl (digitChar_lt_digitChar d (lt_of_lt_of_le hd radix.base_le) e
          (lt_of_lt_of_le he radix.base_le) hlt)
      · exact Or.inr ⟨rfl, ih ys hxs hys hrest (Nat.lt_of_add_lt_add_left h)⟩
      · -- a greater first digit outweighs all digits behind it
        have hweight := Nat.mul_le_mul_right (radix.base ^ ys.length) hgt
        rw [Nat.succ_mul] at hweight
        omega

/-- Numbers that fit a width are written in their order. -/
theorem writePadded_strictMonoOn (radix : Radix) (width : ℕ) (hwidth : 0 < width) :
    StrictMonoOn (radix.writePadded width) (Set.Iio (radix.base ^ width)) := by
  intro a ha b hb hlt
  have hvalue : ∀ value, radix.valueOf (radix.writePadded width value) = value := fun value =>
    ((radix.read?_eq_some_iff _ _).mp (radix.read?_writePadded width value)).2.symm
  apply radix.lt_of_valueOf_lt
  · exact radix.exists_digit_of_mem_writePadded width a
  · exact radix.exists_digit_of_mem_writePadded width b
  · rw [radix.length_writePadded_of_lt width a hwidth ha,
      radix.length_writePadded_of_lt width b hwidth hb]
  · rwa [hvalue, hvalue]

end Radix

/-! ## Bytes -/

/-- The bytes of a text in UTF-8. -/
def utf8Bytes (text : String) : List UInt8 := text.toByteArray.data.toList

/-- The byte of an ASCII character. -/
def asciiByte (c : Char) : UInt8 := UInt8.ofNat c.toNat

/-- The byte of an ASCII character is its code point. -/
theorem toNat_asciiByte (c : Char) (h : c.toNat < 128) : (asciiByte c).toNat = c.toNat :=
  UInt8.toNat_ofNat_of_lt' (lt_trans h (by decide))

/-- An ASCII text has one byte for each character. -/
theorem utf8Bytes_of_ascii (text : String) (h : ∀ c ∈ text.toList, c.toNat < 128) :
    utf8Bytes text = text.toList.map asciiByte := by
  have hbytes : utf8Bytes text = text.toList.flatMap String.utf8EncodeChar := by
    nth_rewrite 1 [← String.ofList_toList (s := text)]
    rw [utf8Bytes, String.toByteArray_ofList, List.utf8Encode, List.toList_data_toByteArray]
  rw [hbytes, List.map_eq_flatMap]
  apply List.flatMap_congr
  intro c hc
  have hsmall : c.val.toNat ≤ 127 := Nat.le_of_lt_succ (h c hc)
  rw [String.utf8EncodeChar, if_pos hsmall]
  rfl

/-- Lists of ASCII characters are ordered as their bytes are. -/
theorem map_asciiByte_lt_iff (xs ys : List Char) (hxs : ∀ c ∈ xs, c.toNat < 128)
    (hys : ∀ c ∈ ys, c.toNat < 128) : xs.map asciiByte < ys.map asciiByte ↔ xs < ys := by
  induction xs generalizing ys with
  | nil => cases ys <;> simp
  | cons x xs ih =>
    cases ys with
    | nil => simp
    | cons y ys =>
      obtain ⟨hx, hxs⟩ := List.forall_mem_cons.mp hxs
      obtain ⟨hy, hys⟩ := List.forall_mem_cons.mp hys
      have hlt : asciiByte x < asciiByte y ↔ x < y := by
        rw [UInt8.lt_iff_toNat_lt, toNat_asciiByte x hx, toNat_asciiByte y hy]
        exact Iff.rfl
      have heq : asciiByte x = asciiByte y ↔ x = y := by
        rw [← UInt8.toNat_inj, toNat_asciiByte x hx, toNat_asciiByte y hy]
        exact Char.toNat_inj
      rw [List.map_cons, List.map_cons, List.cons_lt_cons_iff, List.cons_lt_cons_iff, hlt, heq,
        ih ys hxs hys]

/-- The bytes of ASCII texts are ordered as the texts are. -/
theorem utf8Bytes_lt_iff (a b : String) (ha : ∀ c ∈ a.toList, c.toNat < 128)
    (hb : ∀ c ∈ b.toList, c.toNat < 128) : utf8Bytes a < utf8Bytes b ↔ a < b := by
  rw [utf8Bytes_of_ascii a ha, utf8Bytes_of_ascii b hb, String.lt_iff]
  exact map_asciiByte_lt_iff a.toList b.toList ha hb

/-! ## Names -/

/-- Names are ASCII texts. -/
theorem ascii_labelText (index : ℕ) : ∀ c ∈ (labelText index).toList, c.toNat < 128 := by
  have hdigits : ∀ c ∈ Word.hexDigits, c.toNat < 128 := by simp [Word.hexDigits]
  have hmark : ∀ c ∈ "Addr_".toList, c.toNat < 128 := by simp
  intro c hc
  simp only [labelText, String.toList_append, List.mem_append, String.toList_ofList] at hc
  rcases hc with hc | hc
  · exact hmark c hc
  · exact hdigits c (Word.mem_hexDigits_of_mem_writePadded 4 _ c hc)

/-- Positions whose addresses fit four digits are named in their order. -/
theorem labelText_strictMonoOn : StrictMonoOn labelText (Set.Iic 0x3FFF) := by
  intro i hi j hj hlt
  simp only [String.lt_iff, labelText, String.toList_append, String.toList_ofList]
  apply List.append_left_lt
  apply Radix.hexadecimal.writePadded_strictMonoOn 4 (by decide)
  · exact (address_lt_iff i).mpr hi
  · exact (address_lt_iff j).mpr hj
  · exact Nat.mul_lt_mul_of_pos_right hlt (by decide)

/-- **Names of positions.**  A position has a name exactly if it is at most the last one whose byte
address has four hexadecimal digits, and any other is refused because its address needs too many
digits, or is beyond the machine words.  The name shows the address in exactly four digits with
uppercase letters.  Of two positions with names the lower one has the name that comes first byte by
byte, so different positions have different names. -/
theorem labelName_embeds_order (i j : ℕ) :
    ((∃ name, labelName i = .ok name) ↔ i ≤ 0x3FFF) ∧
    (labelName i =
      .error (.fieldTooWide (toString (shownAddress i)) (.digits .hexadecimal) 4) ↔ 0x3FFF < i) ∧
    (∀ name, labelName i = .ok name → ∃ digits : List Char,
      name = "Addr_" ++ String.ofList digits ∧ digits.length = 4 ∧
        (∀ c ∈ digits, c ∈ Word.hexDigits) ∧
        Radix.hexadecimal.read? digits = some (4 * i)) ∧
    ∀ a b, labelName i = .ok a → labelName j = .ok b →
      (i < j ↔ utf8Bytes a < utf8Bytes b) ∧ (i = j ↔ a = b) := by
  refine ⟨?_, ?_, ?_, ?_⟩
  · simp [labelName_eq_ok_iff]
  · constructor
    · intro h
      by_contra hle
      rw [labelName_of_le i (Nat.le_of_not_lt hle)] at h
      simp at h
    · exact labelName_of_lt i
  · intro name h
    obtain ⟨hle, rfl⟩ := (labelName_eq_ok_iff i name).mp h
    exact exists_digits_labelText i hle
  · intro a b ha hb
    obtain ⟨hi, rfl⟩ := (labelName_eq_ok_iff i a).mp ha
    obtain ⟨hj, rfl⟩ := (labelName_eq_ok_iff j b).mp hb
    constructor
    · rw [utf8Bytes_lt_iff _ _ (ascii_labelText i) (ascii_labelText j)]
      exact (labelText_strictMonoOn.lt_iff_lt hi hj).symm
    · exact labelText_injective.eq_iff.symm

/-- The last position with a name and the one behind it; a position whose address no machine word
can hold; and two names that differ in a digit and a letter. -/
theorem labelName_embeds_order_of_ends :
    (∃ name, labelName 0x3FFF = .ok name) ∧
      labelName 0x4000 = .error (.fieldTooWide "65536" (.digits .hexadecimal) 4) ∧
      labelName 0x4000000000000000
        = .error (.fieldTooWide "4611686018427387904" (.digits .hexadecimal) 4) ∧
      utf8Bytes "Addr_0028" < utf8Bytes "Addr_002C" := by
  have hten : labelName 10 = .ok "Addr_0028" := rfl
  have heleven : labelName 11 = .ok "Addr_002C" := rfl
  refine ⟨(labelName_embeds_order 0x3FFF 0).1.mpr (by decide), ?_, ?_, ?_⟩
  · exact (labelName_embeds_order 0x4000 0).2.1.mpr (by decide)
  · exact (labelName_embeds_order 0x4000000000000000 0).2.1.mpr (by decide)
  · exact ((labelName_embeds_order 10 11).2.2.2 _ _ hten heleven).1.mp (by decide)

end MipsListing
