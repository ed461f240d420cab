/-
# Fields of digits

A field of digits is read as their number if a machine word can hold it, and a number is written
into a field if it needs no more digits than the field has.

* `Radix.isSome_digit?_binary_iff`, `Word.isSome_digit?_hexadecimal_iff` : which characters are
  digits;
* `Radix.readField_of_stray` : a field with a character that is no digit;
* `Radix.readMachineField_of_read?` : the number that a field stands for;
* `Radix.writeField_of_pos`, `Radix.writeField_eq` : the field of a number.
-/
import MipsListing.DigitField
import MipsListing.Proofs.Numeral

namespace MipsListing

/-! ## Digits -/

/-- The binary digits are `0` and `1`. -/
theorem Radix.isSome_digit?_binary_iff (c : Char) :
    (Radix.binary.digit? c).isSome ↔ c = '0' ∨ c = '1' := by
  constructor
  · intro h
    obtain ⟨d, hd⟩ := Option.isSome_iff_exists.mp h
    obtain ⟨hvalue, hsmall⟩ := Option.filter_eq_some_iff.mp hd
    have hsmall : d < 2 := by simpa [Radix.base] using hsmall
    unfold digitValue? at hvalue
    split_ifs at hvalue with hdecimal
    all_goals have hvalue := Option.some.inj hvalue
    · have hzero : '0'.toNat ≤ c.toNat := hdecimal.1
      have hcode : c.toNat = '0'.toNat ∨ c.toNat = '1'.toNat := by
        have : '0'.toNat = 48 := rfl
        have : '1'.toNat = 49 := rfl
        omega
      exact hcode.imp Char.toNat_inj.mp Char.toNat_inj.mp
    · omega
    · omega
  · rintro (rfl | rfl) <;> decide

namespace Word

/-- The hexadecimal digits, in either case. -/
def IsHexDigit (c : Char) : Prop :=
  ('0' ≤ c ∧ c ≤ '9') ∨ ('a' ≤ c ∧ c ≤ 'f') ∨ ('A' ≤ c ∧ c ≤ 'F')

instance (c : Char) : Decidable (IsHexDigit c) :=
  inferInstanceAs (Decidable (_ ∨ _ ∨ _))

/-- The hexadecimal digits are those with a value. -/
theorem isSome_digit?_hexadecimal_iff (c : Char) :
    (Radix.hexadecimal.digit? c).isSome ↔ IsHexDigit c := by
  have hvalue : (digitValue? c).isSome ↔ IsHexDigit c := by
    unfold digitValue? IsHexDigit
    split_ifs <;> simp [*]
  have hsmall : ∀ d, digitValue? c = some d → d < 16 := by
    intro d hd
    unfold digitValue? at hd
    split_ifs at hd with hdecimal hlower hupper
    · have hle : c.toNat ≤ '9'.toNat := hdecimal.2
      have := Option.some.inj hd
      have : '9'.toNat = 57 ∧ '0'.toNat = 48 := ⟨rfl, rfl⟩
      omega
    · have hle : c.toNat ≤ 'f'.toNat := hlower.2
      have := Option.some.inj hd
      have : 'f'.toNat = 102 ∧ 'a'.toNat = 97 := ⟨rfl, rfl⟩
      omega
    · have hle : c.toNat ≤ 'F'.toNat := hupper.2
      have := Option.some.inj hd
      have : 'F'.toNat = 70 ∧ 'A'.toNat = 65 := ⟨rfl, rfl⟩
      omega
  rw [← hvalue, Radix.digit?]
  cases hdigit : digitValue? c with
  | none => rfl
  | some d => simp [Option.filter, Radix.base, hsmall d hdigit]

/-- The hexadecimal digits with uppercase letters. -/
def hexDigits : List Char :=
  ['0', '1', '2', '3', '4', '5', '6', '7', '8', '9', 'A', 'B', 'C', 'D', 'E', 'F']

/-- Padded hexadecimal numerals are written with uppercase letters. -/
theorem mem_hexDigits_of_mem_writePadded (width value : ℕ) (c : Char)
    (hc : c ∈ Radix.hexadecimal.writePadded width value) : c ∈ hexDigits := by
  obtain ⟨d, hd, rfl⟩ := Radix.hexadecimal.exists_digit_of_mem_writePadded width value c hc
  have hd : d < 16 := hd
  interval_cases d <;> decide

end Word

namespace Radix

/-! ## Reading and writing -/

/-- A field with a character that is no digit is malformed. -/
theorem readField_of_stray (radix : Radix) (text : String) (c : Char) (hc : c ∈ text.toList)
    (h : ¬ (radix.digit? c).isSome) :
    radix.readField text = .error (.malformed text (.notDigits radix)) := by
  have hread : radix.read? text.toList = none := by
    rw [Option.eq_none_iff_forall_ne_some]
    intro value hvalue
    exact h (((radix.read?_eq_some_iff _ _).mp hvalue).1 c hc)
  rw [readField, if_neg (List.ne_nil_of_mem hc), hread]

/-- A field that can be read is read as its number, if a machine word can hold this. -/
theorem readMachineField_of_read? (radix : Radix) (text : String) (value : ℕ)
    (hne : text.toList ≠ []) (hread : radix.read? text.toList = some value) :
    radix.readMachineField text =
      if value < UInt64.size then .ok value else .error (.fieldTooWide text .unsigned 64) := by
  unfold readMachineField readField
  rw [if_neg hne, hread]
  rfl

/-- A number is written into a field that it fits. -/
theorem writeField_of_pos (radix : Radix) (source : String) (width value : ℕ) (hw : 0 < width)
    (hmax : width ≤ maxWidth) :
    radix.writeField source width value =
      if value < radix.base ^ width then .ok (String.ofList (radix.writePadded width value))
      else .error (.fieldTooWide source (.digits radix) width) := by
  have hfits := radix.length_writePadded_le_iff width value hw
  unfold writeField
  rw [if_neg (by omega)]
  by_cases hsmall : value < radix.base ^ width
  · rw [if_pos hsmall, if_neg (by have := hfits.mpr hsmall; omega)]
  · rw [if_neg hsmall, if_pos (by have := hfits.not.mpr hsmall; omega)]

/-- A number is written into a width exactly if it fits, and nothing fits the width zero. -/
theorem writeField_eq (radix : Radix) (source : String) (width value : ℕ)
    (hmax : width ≤ maxWidth) :
    radix.writeField source width value =
      if 0 < width ∧ value < radix.base ^ width then
        .ok (String.ofList (radix.writePadded width value))
      else .error (.fieldTooWide source (.digits radix) width) := by
  rcases Nat.eq_zero_or_pos width with rfl | hw
  · -- even the number zero is written with a digit
    have hdigit : 0 < (radix.writePadded 0 value).length := by
      rw [writePadded, List.length_leftpad, write, List.length_map]
      exact lt_max_of_lt_right Nat.length_toDigits_pos
    rw [writeField, if_neg (by omega), if_pos hdigit, if_neg (by omega)]
  · rw [radix.writeField_of_pos source width value hw hmax]
    simp only [hw, true_and]

end Radix

end MipsListing
