/-
# Fields of bits

A binary numeral of at most sixty-four digits is read in two ways.  As a signed number it stands
for a number in two's complement over its own length, so a first digit one counts for as much less
than zero as it would otherwise count more.  As an unsigned number it stands for its value, which
a signed machine word has to hold.  Both readings look for digits first, then at the length.

* `twosComplement_of_lt` : two's complement of a number that has no more bits than are read;
* `BitsFault` : why a text is no binary numeral of at most sixty-four digits;
* `signedBits_cases`, `unsignedBits_cases` : which texts are read, and as what;
* `signedBits_outcome` : both readings, where they differ, and their refusals.
-/
import MipsListing.Proofs.Conversion
import MipsListing.Proofs.SignExtension

namespace MipsListing

open Radix (binary)

/-! ## The first digit -/

/-- In two's complement a number that has no more bits than are read counts the power for the
number of bits less, if its highest bit is set. -/
theorem twosComplement_of_lt (value bits : ℕ) (hpos : 0 < bits) (hmax : bits ≤ 64)
    (h : value < 2 ^ bits) :
    twosComplement value bits
      = if 2 ^ (bits - 1) ≤ value then (value : ℤ) - 2 ^ bits else value := by
  have hfull : (value : ℤ) < 2 ^ bits := by exact_mod_cast h
  have hpower : (2 : ℤ) ^ bits = 2 * 2 ^ (bits - 1) := by
    rw [← pow_succ', Nat.sub_add_cancel hpos]
  rw [twosComplement_eq_iff, signWidth_of_le hpos hmax]
  split_ifs with hhigh
  · have hle : (2 : ℤ) ^ (bits - 1) ≤ value := by exact_mod_cast hhigh
    exact ⟨⟨by linarith, by linarith⟩, Int.sub_modulus_modEq_iff.mpr rfl⟩
  · have hlt : (value : ℤ) < 2 ^ (bits - 1) := by exact_mod_cast Nat.lt_of_not_le hhigh
    exact ⟨⟨by linarith, hlt⟩, rfl⟩

/-- What the first digit of a text counts, if it is a bit. -/
def firstBit (text : String) : ℕ := if text.toList.head? = some '1' then 1 else 0

/-- The first digit of a binary numeral is one exactly if the numeral stands for at least half the
power of two for its length. -/
theorem head?_eq_one_iff (text : String) (h : binary.IsNumeral text) :
    text.toList.head? = some '1' ↔ 2 ^ (text.length - 1) ≤ binary.valueOf text.toList := by
  obtain ⟨hne, hbits⟩ := h
  rw [← String.length_toList]
  cases hlist : text.toList with
  | nil => exact absurd hlist hne
  | cons c rest =>
    rw [hlist] at hbits
    have hrest : binary.valueOf rest < 2 ^ rest.length := binary.valueOf_lt rest fun x hx =>
      (binary.isSome_digit?_iff x).mpr (hbits x (List.mem_cons_of_mem c hx))
    rw [Radix.valueOf_cons, List.head?_cons, List.length_cons, Nat.add_sub_cancel]
    rcases hbits c List.mem_cons_self with rfl | rfl
    · have hzero : (binary.digit? '0').getD 0 = 0 := by decide
      simp [hzero, hrest]
    · have hone : (binary.digit? '1').getD 0 = 1 := by decide
      simp [hone, Radix.base]

/-- Two's complement over the length of a numeral lets its first digit count for less. -/
theorem twosComplement_valueOf (text : String) (h : binary.IsNumeral text)
    (hlength : text.length ≤ 64) :
    twosComplement (binary.valueOf text.toList) text.length
      = binary.valueOf text.toList - firstBit text * 2 ^ text.length := by
  have hpos : 0 < text.length := by
    rw [← String.length_toList]
    exact List.length_pos_iff.mpr h.1
  have hlt := binary.valueOf_lt text.toList h.isSome_digit?
  rw [String.length_toList] at hlt
  rw [twosComplement_of_lt _ _ hpos hlength hlt, firstBit]
  simp only [← head?_eq_one_iff text h]
  split_ifs <;> simp

/-! ## Both outcomes -/

/-- Why a text is no binary numeral of at most sixty-four digits. -/
inductive BitsFault (text : String) : Refusal → Prop where
  /-- Nothing stands there. -/
  | empty (h : text.toList = []) : BitsFault text (.malformed text .empty)
  /-- There is a character that is no digit, however long the text is. -/
  | stray (c : Char) (hc : c ∈ text.toList) (h : ¬ binary.IsDigit c) :
    BitsFault text (.malformed text (.notDigits .binary))
  /-- There are digits only, but more than a machine word has bits. -/
  | tooLong (h : binary.IsNumeral text) (hlength : 64 < text.length) :
    BitsFault text (.fieldTooWide text .signed 64)

/-- A text is a binary numeral of at most sixty-four digits, or has a fault. -/
theorem isNumeral_or_bitsFault (text : String) :
    (binary.IsNumeral text ∧ text.length ≤ 64) ∨ ∃ cause, BitsFault text cause := by
  by_cases hempty : text.toList = []
  · exact Or.inr ⟨_, .empty hempty⟩
  by_cases hdigits : ∀ c ∈ text.toList, binary.IsDigit c
  · by_cases hlength : text.length ≤ 64
    · exact Or.inl ⟨⟨hempty, hdigits⟩, hlength⟩
    · exact Or.inr ⟨_, .tooLong ⟨hempty, hdigits⟩ (by omega)⟩
  · push Not at hdigits
    obtain ⟨c, hc, hstray⟩ := hdigits
    exact Or.inr ⟨_, .stray c hc hstray⟩

/-- A numeral is read as its value. -/
theorem readField_of_isNumeral (text : String) (h : binary.IsNumeral text) :
    binary.readField text = .ok (binary.valueOf text.toList) := by
  rw [Radix.readField, if_neg h.1, h.read?]

/-- A numeral of at most sixty-four digits is read as its value. -/
theorem bitsValue_of_isNumeral (text : String) (h : binary.IsNumeral text)
    (hlength : text.length ≤ 64) : bitsValue text = .ok (binary.valueOf text.toList) := by
  rw [bitsValue, readField_of_isNumeral text h]
  exact if_neg (by omega)

/-- A fault is the refusal of the text. -/
theorem bitsValue_of_bitsFault (text : String) (cause : Refusal) (h : BitsFault text cause) :
    bitsValue text = .error cause := by
  cases h with
  | empty h =>
    rw [bitsValue, Radix.readField, if_pos h]
    rfl
  | stray c hc h =>
    rw [← Radix.isSome_digit?_iff] at h
    rw [bitsValue, binary.readField_of_stray text c hc h]
    rfl
  | tooLong h hlength =>
    rw [bitsValue, readField_of_isNumeral text h]
    exact if_pos hlength

/-! ## The signed reading -/

/-- A numeral of at most sixty-four digits stands for a signed number. -/
theorem signedBits_of_isNumeral (text : String) (h : binary.IsNumeral text)
    (hlength : text.length ≤ 64) :
    signedBits text = .ok (binary.valueOf text.toList - firstBit text * 2 ^ text.length) := by
  rw [signedBits, bitsValue_of_isNumeral text h hlength, ← twosComplement_valueOf text h hlength]
  rfl

/-- Any other text stands for none. -/
theorem signedBits_of_bitsFault (text : String) (cause : Refusal) (h : BitsFault text cause) :
    signedBits text = .error cause := by
  rw [signedBits, bitsValue_of_bitsFault text cause h]
  rfl

/-- **The signed reading** takes every numeral of at most sixty-four digits, and refuses any other
text for its fault. -/
theorem signedBits_cases (text : String) :
    (∀ value : ℤ, signedBits text = .ok value ↔
      (binary.IsNumeral text ∧ text.length ≤ 64) ∧
        value = binary.valueOf text.toList - firstBit text * 2 ^ text.length) ∧
      ∀ cause, signedBits text = .error cause ↔ BitsFault text cause :=
  outcome_of_alternative (isNumeral_or_bitsFault text)
    (fun h => signedBits_of_isNumeral text h.1 h.2) (signedBits_of_bitsFault text)

/-! ## The unsigned reading -/

/-- Why a text is not read as an unsigned number. -/
inductive UnsignedFault (text : String) : Refusal → Prop where
  /-- The text is no binary numeral of at most sixty-four digits. -/
  | ofBits {cause : Refusal} (h : BitsFault text cause) : UnsignedFault text cause
  /-- No signed machine word can hold the number. -/
  | tooLarge (h : binary.IsNumeral text) (hlength : text.length ≤ 64)
    (hvalue : 2 ^ 63 ≤ binary.valueOf text.toList) :
    UnsignedFault text (.fieldTooWide text .signed 63)

/-- A numeral of at most sixty-four digits stands for its value, if a signed machine word can hold
it. -/
theorem unsignedBits_of_isNumeral (text : String) (h : binary.IsNumeral text)
    (hlength : text.length ≤ 64) :
    unsignedBits text = if binary.valueOf text.toList < 2 ^ 63
      then .ok (binary.valueOf text.toList) else .error (.fieldTooWide text .signed 63) := by
  rw [unsignedBits, bitsValue_of_isNumeral text h hlength]
  rfl

/-- A fault is the refusal of the text. -/
theorem unsignedBits_of_unsignedFault (text : String) (cause : Refusal)
    (h : UnsignedFault text cause) : unsignedBits text = .error cause := by
  cases h with
  | ofBits h =>
    rw [unsignedBits, bitsValue_of_bitsFault text cause h]
    rfl
  | tooLarge h hlength hvalue =>
    rw [unsignedBits_of_isNumeral text h hlength, if_neg (Nat.not_lt.mpr hvalue)]

/-- A text is a numeral that a signed machine word can hold, or has a fault. -/
theorem isNumeral_or_unsignedFault (text : String) :
    ((binary.IsNumeral text ∧ text.length ≤ 64) ∧ binary.valueOf text.toList < 2 ^ 63) ∨
      ∃ cause, UnsignedFault text cause := by
  rcases isNumeral_or_bitsFault text with h | ⟨cause, hfault⟩
  · by_cases hvalue : binary.valueOf text.toList < 2 ^ 63
    · exact Or.inl ⟨h, hvalue⟩
    · exact Or.inr ⟨_, .tooLarge h.1 h.2 (Nat.not_lt.mp hvalue)⟩
  · exact Or.inr ⟨cause, .ofBits hfault⟩

/-- **The unsigned reading** takes the numerals of at most sixty-four digits that a signed machine
word can hold, and refuses any other text for its fault. -/
theorem unsignedBits_cases (text : String) :
    (∀ value, unsignedBits text = .ok value ↔
      ((binary.IsNumeral text ∧ text.length ≤ 64) ∧ binary.valueOf text.toList < 2 ^ 63) ∧
        value = binary.valueOf text.toList) ∧
      ∀ cause, unsignedBits text = .error cause ↔ UnsignedFault text cause := by
  refine outcome_of_alternative (isNumeral_or_unsignedFault text) ?_
    (unsignedBits_of_unsignedFault text)
  rintro ⟨⟨h, hlength⟩, hvalue⟩
  rw [unsignedBits_of_isNumeral text h hlength, if_pos hvalue]

/-! ## Both readings -/

/-- A signed machine word cannot hold the value of a numeral of at most sixty-four digits exactly
if there are sixty-four, of which the first is one. -/
theorem le_valueOf_iff (text : String) (h : binary.IsNumeral text) (hlength : text.length ≤ 64) :
    2 ^ 63 ≤ binary.valueOf text.toList ↔ text.length = 64 ∧ text.toList.head? = some '1' := by
  rw [head?_eq_one_iff text h]
  constructor
  · intro hvalue
    have hlt := binary.valueOf_lt text.toList h.isSome_digit?
    rw [String.length_toList] at hlt
    have hlong : 63 < text.length :=
      (Nat.pow_lt_pow_iff_right (by decide : 1 < 2)).mp (lt_of_le_of_lt hvalue hlt)
    obtain hfull : text.length = 64 := by omega
    rw [hfull]
    exact ⟨rfl, hvalue⟩
  · rintro ⟨hfull, hvalue⟩
    rwa [hfull] at hvalue

/-- **Fields of bits.**  A text is read as a signed number exactly if it is a binary numeral of at
most sixty-four digits, and the number then is its value, less the power of two for its length if
the first digit is one.  It is read as an unsigned number exactly if the value is besides less
than the sixty-third power of two, and the number is the value.  So only the numerals of
sixty-four digits that begin with one are read signed but not unsigned, and where a text is read
both ways, the numbers differ by the weight of the first digit.  Empty texts and texts with a
character that is no digit are malformed, however long they are; all other refused texts are too
wide. -/
theorem signedBits_outcome (text : String) :
    (∀ value : ℤ, signedBits text = .ok value ↔
      (binary.IsNumeral text ∧ text.length ≤ 64) ∧
        value = if text.toList.head? = some '1' then
          (binary.valueOf text.toList : ℤ) - 2 ^ text.length
        else binary.valueOf text.toList) ∧
    (∀ value, unsignedBits text = .ok value ↔
      ((binary.IsNumeral text ∧ text.length ≤ 64) ∧ binary.valueOf text.toList < 2 ^ 63) ∧
        value = binary.valueOf text.toList) ∧
    (((∃ value, signedBits text = .ok value) ∧ ¬ ∃ value, unsignedBits text = .ok value) ↔
      binary.IsNumeral text ∧ text.length = 64 ∧ text.toList.head? = some '1') ∧
    (∀ signed unsigned, signedBits text = .ok signed → unsignedBits text = .ok unsigned →
      signed = unsigned - firstBit text * 2 ^ text.length) ∧
    (∀ cause, signedBits text = .error cause ↔ BitsFault text cause) ∧
    ∀ cause, unsignedBits text = .error cause ↔ UnsignedFault text cause := by
  obtain ⟨hsigned, hsignedFault⟩ := signedBits_cases text
  obtain ⟨hunsigned, hunsignedFault⟩ := unsignedBits_cases text
  refine ⟨fun value => ?_, hunsigned, ?_, ?_, hsignedFault, hunsignedFault⟩
  · rw [hsigned, firstBit]
    split_ifs <;> simp
  · simp only [hsigned, hunsigned, exists_and_left, exists_eq, and_true]
    constructor
    · rintro ⟨⟨h, hlength⟩, hno⟩
      have hvalue : 2 ^ 63 ≤ binary.valueOf text.toList :=
        Nat.not_lt.mp fun hlt => hno ⟨⟨h, hlength⟩, hlt⟩
      exact ⟨h, (le_valueOf_iff text h hlength).mp hvalue⟩
    · rintro ⟨h, hfull, hfirst⟩
      have hlength : text.length ≤ 64 := hfull.le
      have hvalue := (le_valueOf_iff text h hlength).mpr ⟨hfull, hfirst⟩
      exact ⟨⟨h, hlength⟩, fun hread => Nat.not_lt.mpr hvalue hread.2⟩
  · intro signed unsigned hs hu
    rw [((hsigned signed).mp hs).2, ((hunsigned unsigned).mp hu).2]

/-- Minus five is eleven less sixteen; the least of the signed machine words has no unsigned
reading; and of two texts that are too long one is malformed at its end. -/
theorem signedBits_outcome_of_four :
    (signedBits "1011" = .ok (-5) ∧ unsignedBits "1011" = .ok 11 ∧
      (-5 : ℤ) = (11 : ℕ) - firstBit "1011" * 2 ^ "1011".length) ∧
    ((∃ value, signedBits (String.ofList ('1' :: List.replicate 63 '0')) = .ok value) ∧
      ¬ ∃ value, unsignedBits (String.ofList ('1' :: List.replicate 63 '0')) = .ok value) ∧
    signedBits (String.ofList (List.replicate 65 '1')) = .error
      (.fieldTooWide (String.ofList (List.replicate 65 '1')) .signed 64) ∧
    unsignedBits (String.ofList (List.replicate 65 '1' ++ ['2'])) = .error
      (.malformed (String.ofList (List.replicate 65 '1' ++ ['2'])) (.notDigits .binary)) := by
  obtain ⟨hsigned, hunsigned, -, hdifference, -⟩ := signedBits_outcome "1011"
  have hfive : signedBits "1011" = .ok (-5) := (hsigned (-5)).mpr (by decide)
  have heleven : unsignedBits "1011" = .ok 11 := (hunsigned 11).mpr (by decide)
  refine ⟨⟨hfive, heleven, hdifference _ _ hfive heleven⟩, ?_, ?_, ?_⟩
  · exact (signedBits_outcome _).2.2.1.mpr (by decide +kernel)
  · exact (signedBits_outcome _).2.2.2.2.1 _ |>.mpr
      (.tooLong (by decide +kernel) (by decide +kernel))
  · exact (signedBits_outcome _).2.2.2.2.2 _ |>.mpr
      (.ofBits (.stray '2' (by decide +kernel) (by decide)))

end MipsListing
