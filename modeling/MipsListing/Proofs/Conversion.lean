/-
# Converting fields

Which texts of digits are converted into a field of a width, and into which.  A text is malformed
if it is empty or has a character that is no digit.  Any other text is a numeral, and it has a
field of the width exactly if its number fits both a machine word and the width; if it has none,
it is too wide.  The field is the only text of the width, with letters in upper case, that stands
for the number, so a conversion forgets nothing but the zeros in front and the case of the
letters.

* `Radix.IsField`, `Radix.HasField` : the fields of a number, and the texts that have one;
* `Radix.convertField_eq_ok_iff`, `Radix.convertField_eq_error_iff` : both outcomes;
* `Radix.convertField_outcome` : the outcomes by their kind, and fields of numbers alone;
* `Radix.roundTrip_eq` : a conversion and the conversion back;
* `Radix.convertField_round_trip` : what comes back from either radix.
-/
import MipsListing.Proofs.DigitField

namespace MipsListing.Radix

/-! ## Numerals and fields -/

/-- The characters that are digits of a radix. -/
def IsDigit : Radix → Char → Prop
  | binary, c => c = '0' ∨ c = '1'
  | hexadecimal, c => Word.IsHexDigit c

instance (radix : Radix) (c : Char) : Decidable (radix.IsDigit c) :=
  match radix with
  | binary => inferInstanceAs (Decidable (c = '0' ∨ c = '1'))
  | hexadecimal => inferInstanceAs (Decidable (Word.IsHexDigit c))

/-- The digits of a radix are the characters with a value. -/
theorem isSome_digit?_iff (radix : Radix) (c : Char) :
    (radix.digit? c).isSome ↔ radix.IsDigit c := by
  cases radix with
  | binary => exact isSome_digit?_binary_iff c
  | hexadecimal => exact Word.isSome_digit?_hexadecimal_iff c

/-- A text of digits, with at least one. -/
def IsNumeral (radix : Radix) (text : String) : Prop :=
  text.toList ≠ [] ∧ ∀ c ∈ text.toList, radix.IsDigit c

instance (radix : Radix) (text : String) : Decidable (radix.IsNumeral text) :=
  -- the characters of the text are tried, not all characters
  have : Decidable (∀ c ∈ text.toList, radix.IsDigit c) := List.decidableBAll _ _
  inferInstanceAs (Decidable (_ ∧ _))

/-- The digits with which fields are written, letters in upper case. -/
def fieldDigits : Radix → List Char
  | binary => ['0', '1']
  | hexadecimal => Word.hexDigits

/-- A text is the field of a number in a width: it has that many digits, each as fields are
written, and stands for the number. -/
structure IsField (radix : Radix) (width value : ℕ) (text : String) : Prop where
  length_eq : text.length = width
  mem_fieldDigits : ∀ c ∈ text.toList, c ∈ radix.fieldDigits
  valueOf_eq : radix.valueOf text.toList = value

variable {radix source target : Radix} {text : String}

theorem IsNumeral.isSome_digit? (h : radix.IsNumeral text) :
    ∀ c ∈ text.toList, (radix.digit? c).isSome :=
  fun c hc => (radix.isSome_digit?_iff c).mpr (h.2 c hc)

/-- A numeral is read as its value. -/
theorem IsNumeral.read? (h : radix.IsNumeral text) :
    radix.read? text.toList = some (radix.valueOf text.toList) :=
  (radix.read?_eq_some_iff _ _).mpr ⟨h.isSome_digit?, rfl⟩

/-- What is written in a width is a field, if the number fits the width. -/
theorem isField_writePadded (radix : Radix) (width value : ℕ) (hw : 0 < width)
    (h : value < radix.base ^ width) :
    radix.IsField width value (String.ofList (radix.writePadded width value)) where
  length_eq := by
    rw [String.length_ofList]
    exact radix.length_writePadded_of_lt width value hw h
  mem_fieldDigits := by
    intro c hc
    rw [String.toList_ofList] at hc
    cases radix with
    | binary =>
      have hbit := (isSome_digit?_binary_iff c).mp
        (binary.isSome_digit?_of_mem_writePadded width value c hc)
      simpa [fieldDigits] using hbit
    | hexadecimal => exact Word.mem_hexDigits_of_mem_writePadded width value c hc
  valueOf_eq := by
    rw [String.toList_ofList]
    exact ((radix.read?_eq_some_iff _ value).mp (radix.read?_writePadded width value)).2.symm

/-- What is written in a width is a numeral, if the width is not zero. -/
theorem isNumeral_writePadded (radix : Radix) (width value : ℕ) (hw : 0 < width) :
    radix.IsNumeral (String.ofList (radix.writePadded width value)) := by
  rw [IsNumeral, String.toList_ofList]
  refine ⟨?_, fun c hc => ?_⟩
  · rw [← List.length_pos_iff, writePadded, List.length_leftpad]
    omega
  · exact (radix.isSome_digit?_iff c).mp (radix.isSome_digit?_of_mem_writePadded width value c hc)

/-! ## Both outcomes -/

/-- A text has a field of a width: it is a numeral whose number fits a machine word and the
width.  The number fits the width if it is below the power of the base, which is two for binary
and sixteen for hexadecimal fields. -/
structure HasField (source target : Radix) (text : String) (width : ℕ) : Prop where
  isNumeral : source.IsNumeral text
  width_pos : 0 < width
  valueOf_lt_size : source.valueOf text.toList < UInt64.size
  valueOf_lt_pow : source.valueOf text.toList < target.base ^ width

/-- Why a text is not converted into a field of a width. -/
inductive ConversionFault (source target : Radix) (text : String) (width : ℕ) : Refusal → Prop where
  /-- Nothing stands there. -/
  | empty (h : text.toList = []) :
    ConversionFault source target text width (.malformed text .empty)
  /-- There is a character that is no digit, however long the text is. -/
  | stray (c : Char) (hc : c ∈ text.toList) (h : ¬ source.IsDigit c) :
    ConversionFault source target text width (.malformed text (.notDigits source))
  /-- No machine word can hold the number, whatever the width is. -/
  | overMachine (h : source.IsNumeral text) (hvalue : UInt64.size ≤ source.valueOf text.toList) :
    ConversionFault source target text width (.fieldTooWide text .unsigned 64)
  /-- The number needs more digits than the width has. -/
  | overWidth (h : source.IsNumeral text) (hvalue : source.valueOf text.toList < UInt64.size)
    (hwidth : width = 0 ∨ target.base ^ width ≤ source.valueOf text.toList) :
    ConversionFault source target text width (.fieldTooWide text (.digits target) width)

/-- A text has a field of a width or a fault. -/
theorem hasField_or_fault (source target : Radix) (text : String) (width : ℕ) :
    HasField source target text width ∨ ∃ cause, ConversionFault source target text width cause := by
  by_cases hempty : text.toList = []
  · exact Or.inr ⟨_, .empty hempty⟩
  by_cases hdigits : ∀ c ∈ text.toList, source.IsDigit c
  · have hnumeral : source.IsNumeral text := ⟨hempty, hdigits⟩
    by_cases hsize : source.valueOf text.toList < UInt64.size
    · by_cases hwidth : 0 < width ∧ source.valueOf text.toList < target.base ^ width
      · exact Or.inl ⟨hnumeral, hwidth.1, hsize, hwidth.2⟩
      · exact Or.inr ⟨_, .overWidth hnumeral hsize (by omega)⟩
    · exact Or.inr ⟨_, .overMachine hnumeral (by omega)⟩
  · push Not at hdigits
    obtain ⟨c, hc, hstray⟩ := hdigits
    exact Or.inr ⟨_, .stray c hc hstray⟩

/-- The refusals of empty texts and of stray characters, and nothing else, call a text
malformed. -/
theorem exists_malformed_iff (source target : Radix) (text : String) (width : ℕ) :
    (∃ shown reason, ConversionFault source target text width (.malformed shown reason)) ↔
      text.toList = [] ∨ ∃ c ∈ text.toList, ¬ source.IsDigit c := by
  constructor
  · rintro ⟨_, _, hfault⟩
    cases hfault with
    | empty h => exact Or.inl h
    | stray c hc h => exact Or.inr ⟨c, hc, h⟩
  · rintro (h | ⟨c, hc, h⟩)
    · exact ⟨_, _, .empty h⟩
    · exact ⟨_, _, .stray c hc h⟩

/-- A text is too wide if it is a numeral without a field. -/
theorem exists_fieldTooWide_iff (source target : Radix) (text : String) (width : ℕ) :
    (∃ shown field limit,
        ConversionFault source target text width (.fieldTooWide shown field limit)) ↔
      source.IsNumeral text ∧ ¬ HasField source target text width := by
  constructor
  · rintro ⟨_, _, _, hfault⟩
    cases hfault with
    | overMachine h hvalue =>
      exact ⟨h, fun hfits => absurd hfits.valueOf_lt_size (Nat.not_lt.mpr hvalue)⟩
    | overWidth h _ hwidth =>
      refine ⟨h, fun hfits => ?_⟩
      have := hfits.width_pos
      have := hfits.valueOf_lt_pow
      omega
  · rintro ⟨hnumeral, hno⟩
    obtain ⟨cause, hfault⟩ := (hasField_or_fault source target text width).resolve_left hno
    cases hfault with
    | empty h => exact absurd h hnumeral.1
    | stray c hc h => exact absurd (hnumeral.2 c hc) h
    | overMachine h hvalue => exact ⟨_, _, _, .overMachine h hvalue⟩
    | overWidth h hvalue hwidth => exact ⟨_, _, _, .overWidth h hvalue hwidth⟩

/-! ## Converting -/

/-- A numeral is written anew, if a machine word can hold its number. -/
theorem convertField_of_isNumeral (h : source.IsNumeral text) (width : ℕ)
    (hmax : width ≤ maxWidth) :
    convertField source target text width =
      if UInt64.size ≤ source.valueOf text.toList then .error (.fieldTooWide text .unsigned 64)
      else if 0 < width ∧ source.valueOf text.toList < target.base ^ width then
        .ok (String.ofList (target.writePadded width (source.valueOf text.toList)))
      else .error (.fieldTooWide text (.digits target) width) := by
  rw [convertField, source.readMachineField_of_read? text _ h.1 h.read?]
  by_cases hvalue : source.valueOf text.toList < UInt64.size
  · rw [if_pos hvalue, if_neg (by omega), ← target.writeField_eq text width _ hmax]
    rfl
  · rw [if_neg hvalue, if_pos (by omega)]
    rfl

/-- A text that cannot be read is not converted. -/
theorem convertField_of_readField_error (width : ℕ) (cause : Refusal)
    (h : source.readField text = .error cause) :
    convertField source target text width = .error cause := by
  rw [convertField, readMachineField, h]
  rfl

/-- A fault is the refusal of the text. -/
theorem convertField_of_fault (width : ℕ) (hmax : width ≤ maxWidth) (cause : Refusal)
    (h : ConversionFault source target text width cause) :
    convertField source target text width = .error cause := by
  cases h with
  | empty h => exact convertField_of_readField_error width _ (if_pos h)
  | stray c hc h =>
    rw [← isSome_digit?_iff] at h
    exact convertField_of_readField_error width _ (source.readField_of_stray text c hc h)
  | overMachine h hvalue =>
    rw [convertField_of_isNumeral h width hmax, if_pos hvalue]
  | overWidth h hvalue hwidth =>
    rw [convertField_of_isNumeral h width hmax, if_neg (by omega), if_neg (by omega)]

/-- A text that has a field is converted into it. -/
theorem convertField_of_hasField (width : ℕ) (hmax : width ≤ maxWidth)
    (h : HasField source target text width) :
    convertField source target text width =
      .ok (String.ofList (target.writePadded width (source.valueOf text.toList))) := by
  rw [convertField_of_isNumeral h.isNumeral width hmax,
    if_neg (Nat.not_le.mpr h.valueOf_lt_size), if_pos ⟨h.width_pos, h.valueOf_lt_pow⟩]

/-- **Refused texts**: each is refused for its fault. -/
theorem convertField_eq_error_iff (width : ℕ) (hmax : width ≤ maxWidth) (cause : Refusal) :
    convertField source target text width = .error cause ↔
      ConversionFault source target text width cause :=
  (outcome_of_alternative (hasField_or_fault source target text width)
    (convertField_of_hasField width hmax) (convertField_of_fault width hmax)).2 cause

/-- **Converted texts**: those that have a field of the width, which is the result. -/
theorem convertField_eq_ok_iff (width : ℕ) (hmax : width ≤ maxWidth) (result : String) :
    convertField source target text width = .ok result ↔
      HasField source target text width ∧
        result = String.ofList (target.writePadded width (source.valueOf text.toList)) :=
  (outcome_of_alternative (hasField_or_fault source target text width)
    (convertField_of_hasField width hmax) (convertField_of_fault width hmax)).1 result

/-- The numbers that have a field of a width, and their fields. -/
theorem fieldOf_eq_ok_iff (radix : Radix) (value width : ℕ) (hmax : width ≤ maxWidth)
    (result : String) :
    radix.fieldOf value width = .ok result ↔
      (0 < width ∧ value < radix.base ^ width) ∧
        result = String.ofList (radix.writePadded width value) := by
  rw [fieldOf, writeField_eq radix _ width value hmax]
  split
  · rename_i h
    simp [h, eq_comm]
  · rename_i h
    simp [h]

/-- **Which texts are converted, and into what.**  In any width, zero included, a text is
malformed exactly if it is empty or has a character that is no digit; it is converted exactly if
it has a field of the width, and the result then is this field; and it is too wide exactly if it
is a numeral without a field.  A number alone is written exactly if it fits the width, and then
every numeral of the number is converted into the text that is written. -/
theorem convertField_outcome (source target : Radix) (width : ℕ) (hmax : width ≤ maxWidth) :
    (∀ text : String,
      ((∃ shown reason,
          convertField source target text width = .error (.malformed shown reason)) ↔
        text.toList = [] ∨ ∃ c ∈ text.toList, ¬ source.IsDigit c) ∧
      ((∃ result, convertField source target text width = .ok result) ↔
        HasField source target text width) ∧
      (∀ result, convertField source target text width = .ok result →
        target.IsField width (source.valueOf text.toList) result) ∧
      ((∃ shown field limit,
          convertField source target text width = .error (.fieldTooWide shown field limit)) ↔
        source.IsNumeral text ∧ ¬ HasField source target text width)) ∧
    ∀ value, value < UInt64.size →
      ((∃ result, target.fieldOf value width = .ok result) ↔
        0 < width ∧ value < target.base ^ width) ∧
      ∀ result, target.fieldOf value width = .ok result →
        ∀ text, source.IsNumeral text → source.valueOf text.toList = value →
          convertField source target text width = .ok result := by
  simp only [convertField_eq_error_iff width hmax, exists_malformed_iff, exists_fieldTooWide_iff,
    convertField_eq_ok_iff width hmax, fieldOf_eq_ok_iff _ _ width hmax]
  refine ⟨fun text => ⟨trivial, by simp, ?_, trivial⟩, fun value hvalue => ⟨by simp, ?_⟩⟩
  · rintro _ ⟨hfits, rfl⟩
    exact target.isField_writePadded width _ hfits.width_pos hfits.valueOf_lt_pow
  · rintro _ ⟨⟨hw, hlt⟩, rfl⟩ text hnumeral rfl
    exact ⟨⟨hnumeral, hw, hvalue, hlt⟩, rfl⟩

/-- A sign is no digit, a number is compared with the width and not with the digits it is read
from, and twelve is written like its binary numerals. -/
theorem convertField_outcome_of_small :
    (∃ shown reason,
        convertField hexadecimal binary "+1" 8 = .error (.malformed shown reason)) ∧
      (∃ result, convertField hexadecimal binary "0003" 2 = .ok result ∧
        binary.IsField 2 3 result) ∧
      (∃ shown field limit,
        convertField hexadecimal binary "1FF" 8 = .error (.fieldTooWide shown field limit)) ∧
      ∃ result, hexadecimal.fieldOf 12 4 = .ok result ∧
        convertField binary hexadecimal "01100" 4 = .ok result := by
  have height : (8 : ℕ) ≤ maxWidth := by decide
  have three : hexadecimal.valueOf "0003".toList = 3 := by decide
  have large : hexadecimal.valueOf "1FF".toList = 511 := by decide
  obtain ⟨hsign, -⟩ := (convertField_outcome hexadecimal binary 8 height).1 "+1"
  obtain ⟨-, -, -, hwide⟩ := (convertField_outcome hexadecimal binary 8 height).1 "1FF"
  obtain ⟨-, hconverted, hfield, -⟩ :=
    (convertField_outcome hexadecimal binary 2 (by decide)).1 "0003"
  obtain ⟨hwritten, hsame⟩ :=
    (convertField_outcome binary hexadecimal 4 (by decide)).2 12 (by decide +kernel)
  refine ⟨hsign.mpr (Or.inr ⟨'+', by decide, by decide⟩), ?_, hwide.mpr ⟨by decide, ?_⟩, ?_⟩
  · obtain ⟨result, hresult⟩ := hconverted.mpr
      ⟨by decide, by decide, by rw [three]; decide +kernel, by rw [three]; decide⟩
    have hthree := hfield result hresult
    rw [three] at hthree
    exact ⟨result, hresult, hthree⟩
  · intro hfits
    have hlt := hfits.valueOf_lt_pow
    rw [large] at hlt
    exact absurd hlt (by decide)
  · obtain ⟨result, hresult⟩ := hwritten.mpr ⟨by decide, by decide⟩
    exact ⟨result, hresult, hsame result hresult "01100" (by decide) (by decide)⟩

/-! ## There and back -/

/-- A text converted into a field of another radix, and the field converted back. -/
def roundTrip (source target : Radix) (text : String) (width back : ℕ) :
    Except Refusal String := do
  convertField target source (← convertField source target text width) back

/-- **What comes back** is the number of the text, written in the width back. -/
theorem roundTrip_eq (width back : ℕ) (hmax : width ≤ maxWidth)
    (hbackmax : back ≤ maxWidth) (h : HasField source target text width) (hback : 0 < back)
    (hvalue : source.valueOf text.toList < source.base ^ back) :
    roundTrip source target text width back =
      .ok (String.ofList (source.writePadded back (source.valueOf text.toList))) := by
  have hfield := target.isField_writePadded width _ h.width_pos h.valueOf_lt_pow
  have hagain : HasField target source
      (String.ofList (target.writePadded width (source.valueOf text.toList))) back := by
    constructor
    · exact target.isNumeral_writePadded width _ h.width_pos
    · exact hback
    · rw [hfield.valueOf_eq]
      exact h.valueOf_lt_size
    · rw [hfield.valueOf_eq]
      exact hvalue
  rw [roundTrip, convertField_of_hasField width hmax h]
  simp only [bind, Except.bind]
  rw [convertField_of_hasField back hbackmax hagain, hfield.valueOf_eq]

/-- In its own width a numeral comes back as it was, but with uppercase letters. -/
theorem roundTrip_length (width : ℕ) (hmax : width ≤ maxWidth)
    (hlength : text.length ≤ maxWidth) (h : HasField source target text width) :
    roundTrip source target text width text.length = .ok text.toUpper := by
  have hdigits := h.isNumeral.isSome_digit?
  have hpos : 0 < text.length := by
    rw [← String.length_toList]
    exact List.length_pos_iff.mpr h.isNumeral.1
  have hlt := source.valueOf_lt text.toList hdigits
  have hwrite := source.writePadded_valueOf text.toList h.isNumeral.1 hdigits
  rw [String.length_toList] at hlt hwrite
  rw [roundTrip_eq width text.length hmax hlength h hpos hlt, hwrite,
    ← String.toList_map, String.ofList_toList]
  rfl

/-- Binary digits have no case. -/
theorem map_toUpper_of_isDigit (digits : List Char) (h : ∀ c ∈ digits, binary.IsDigit c) :
    digits.map Char.toUpper = digits := by
  rw [List.map_congr_left (g := id), List.map_id]
  intro c hc
  rcases h c hc with rfl | rfl <;> rfl

/-- **Conversions undo each other.**  A binary numeral that is converted to hexadecimal and back
comes back with its zeros in front replaced by as many as the width asks for, and as it was if
the width is its length.  A hexadecimal numeral that is converted to binary and back into its own
width comes back in upper case. -/
theorem convertField_round_trip :
    (∀ (text : String) (width back : ℕ), HasField binary hexadecimal text width →
      width ≤ maxWidth → 0 < back → back ≤ maxWidth →
      binary.valueOf text.toList < 2 ^ back →
      roundTrip binary hexadecimal text width back =
        .ok (String.ofList ((text.toList.dropWhile (· == '0')).leftpad back '0')) ∧
      (back = text.length → roundTrip binary hexadecimal text width back = .ok text)) ∧
    ∀ (text : String) (width : ℕ), HasField hexadecimal binary text width → width ≤ maxWidth →
      text.length ≤ maxWidth →
      roundTrip hexadecimal binary text width text.length = .ok text.toUpper := by
  constructor
  · intro text width back h hmax hback hbackmax hvalue
    have hdigits := h.isNumeral.2
    constructor
    · have hpadded : ∀ c ∈ (text.toList.dropWhile (· == '0')).leftpad back '0',
          binary.IsDigit c := by
        intro c hc
        rcases List.mem_append.mp hc with hc | hc
        · exact Or.inl (List.eq_of_mem_replicate hc)
        · exact hdigits c ((List.dropWhile_sublist _).subset hc)
      rw [roundTrip_eq width back hmax hbackmax h hback hvalue,
        binary.writePadded_valueOf_of_lt _ h.isNumeral.isSome_digit? back hback hvalue,
        map_toUpper_of_isDigit _ hpadded]
    · rintro rfl
      have hsame : text.toUpper = text := by
        rw [← String.toList_inj, String.toUpper, String.toList_map,
          map_toUpper_of_isDigit _ hdigits]
      rw [roundTrip_length width hmax hbackmax h, hsame]
  · intro text width h hmax hlength
    exact roundTrip_length width hmax hlength h

/-- Zeros in front are added, taken away or kept, and letters become uppercase ones. -/
theorem convertField_round_trip_of_small :
    roundTrip binary hexadecimal "0101" 1 6 = .ok "000101" ∧
      roundTrip binary hexadecimal "0101" 1 3 = .ok "101" ∧
      roundTrip binary hexadecimal "0101" 1 4 = .ok "0101" ∧
      roundTrip hexadecimal binary "0aF" 8 3 = .ok "0AF" := by
  have five : binary.valueOf "0101".toList = 5 := by decide
  have hbinary : HasField binary hexadecimal "0101" 1 :=
    ⟨by decide, by decide, by rw [five]; decide +kernel, by rw [five]; decide⟩
  have large : hexadecimal.valueOf "0aF".toList = 175 := by decide
  have hhexadecimal : HasField hexadecimal binary "0aF" 8 :=
    ⟨by decide, by decide, by rw [large]; decide +kernel, by rw [large]; decide⟩
  obtain ⟨hthere, hback⟩ := convertField_round_trip
  have hsix := hthere "0101" 1 6 hbinary (by decide) (by decide) (by decide) (by decide)
  have hthree := hthere "0101" 1 3 hbinary (by decide) (by decide) (by decide) (by decide)
  have hfour := hthere "0101" 1 4 hbinary (by decide) (by decide) (by decide) (by decide)
  refine ⟨hsix.1.trans ?_, hthree.1.trans ?_, hfour.2 rfl, ?_⟩
  · decide
  · decide
  · exact (hback "0aF" 8 hhexadecimal (by decide) (by decide)).trans (by decide +kernel)

end MipsListing.Radix
