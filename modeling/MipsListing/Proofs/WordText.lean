/-
# The texts of a word

A word is read from its binary text and from its hexadecimal text, and reading undoes writing in
both.  A text is a binary text of a word exactly if it has thirty-two characters, each a binary
digit; any other text is malformed.  Hexadecimal digits stand for a word exactly if their number
fits into one, with any number of zeros in front and in either case.

* `Word.exists_ofBinary` and `Word.ofBinary_of_not_isBinary` : which texts are binary texts;
* `Word.ofBinary_toBinary`, `Word.ofBinary_eq_ok_iff` : reading the binary text of a word, and
  no other;
* `Word.ofHex_eq_ok_iff_isHexDigit`, `Word.ofHex_eq_error_iff` : the word that hexadecimal digits
  stand for, and why other texts stand for none, which by `Word.hexFault_iff` is why they are
  not converted;
* `Word.ofHex_toHex` : reading the hexadecimal text of a word;
* `Word.texts_exact` : both texts.
-/
import MipsListing.Word
import MipsListing.Proofs.Conversion

namespace MipsListing

namespace Word

/-! ## Binary texts -/

/-- A text has the form in which a word is written in binary. -/
def IsBinary (text : String) : Prop :=
  text.length = 32 ∧ ∀ c ∈ text.toList, c = '0' ∨ c = '1'

instance (text : String) : Decidable (IsBinary text) :=
  inferInstanceAs (Decidable (_ ∧ _))

/-- Binary digits take one byte each. -/
theorem utf8ByteSize_of_bits (text : String) (h : ∀ c ∈ text.toList, c = '0' ∨ c = '1') :
    text.utf8ByteSize = text.length := by
  have hbytes : ∀ chars : List Char, (∀ c ∈ chars, c = '0' ∨ c = '1') →
      String.utf8Len chars = chars.length := by
    intro chars hchars
    induction chars with
    | nil => rfl
    | cons c chars ih =>
      have hone : c.utf8Size = 1 := by
        rcases hchars c (by simp) with rfl | rfl <;> rfl
      rw [String.utf8Len_cons, hone, ih fun x hx => hchars x (by simp [hx]), List.length_cons]
  rw [← String.length_toList, ← hbytes text.toList h, ← String.utf8ByteSize_ofList,
    String.ofList_toList]

/-- The characters of a binary text are digits. -/
theorem IsBinary.isSome_digit? {text : String} (h : IsBinary text) :
    ∀ c ∈ text.toList, (Radix.binary.digit? c).isSome :=
  fun c hc => (Radix.isSome_digit?_binary_iff c).mpr (h.2 c hc)

/-- A text of thirty-two binary digits stands for the word of its number. -/
theorem ofBinary_of_isBinary (text : String) (h : IsBinary text) :
    ofBinary text = .ok (BitVec.ofNat 32 (Radix.binary.valueOf text.toList)) := by
  have hsize : text.utf8ByteSize = 32 := (utf8ByteSize_of_bits text h.2).trans h.1
  rw [ofBinary, if_neg (not_not.mpr hsize),
    (Radix.binary.read?_eq_some_iff _ _).mpr ⟨h.isSome_digit?, rfl⟩]

/-- A text of thirty-two binary digits stands for a word. -/
theorem exists_ofBinary (text : String) (h : IsBinary text) :
    ∃ word, ofBinary text = .ok word :=
  ⟨_, ofBinary_of_isBinary text h⟩

/-- Any other text is malformed. -/
theorem ofBinary_of_not_isBinary (text : String) (h : ¬ IsBinary text) :
    ∃ reason, ofBinary text = .error (.malformed text reason) := by
  unfold ofBinary
  split_ifs with hsize
  · exact ⟨_, rfl⟩
  cases hread : Radix.binary.read? text.toList with
  | none => exact ⟨_, rfl⟩
  | some value =>
    have hbits : ∀ c ∈ text.toList, c = '0' ∨ c = '1' := fun c hc =>
      (Radix.isSome_digit?_binary_iff c).mp
        (((Radix.binary.read?_eq_some_iff _ _).mp hread).1 c hc)
    rw [utf8ByteSize_of_bits text hbits, not_not] at hsize
    exact absurd ⟨hsize, hbits⟩ h

/-- The binary text of a word has thirty-two binary digits. -/
theorem isBinary_toBinary (word : Word) : IsBinary word.toBinary := by
  unfold IsBinary toBinary
  rw [String.length_ofList, String.toList_ofList]
  refine ⟨Radix.binary.length_writePadded_of_lt 32 _ (by decide) word.isLt, ?_⟩
  exact fun c hc => (Radix.isSome_digit?_binary_iff c).mp
    (Radix.binary.isSome_digit?_of_mem_writePadded 32 word.toNat c hc)

/-- Reading undoes writing in binary. -/
theorem ofBinary_toBinary (word : Word) : ofBinary word.toBinary = .ok word := by
  obtain ⟨hlength, hbits⟩ := isBinary_toBinary word
  rw [ofBinary, if_neg (by rw [utf8ByteSize_of_bits _ hbits]; omega), toBinary,
    String.toList_ofList, Radix.read?_writePadded]
  simp

/-- Writing undoes reading in binary. -/
theorem toBinary_ofNat_valueOf (text : String) (h : IsBinary text) :
    toBinary (BitVec.ofNat 32 (Radix.binary.valueOf text.toList)) = text := by
  have hlength : text.toList.length = 32 := String.length_toList.trans h.1
  have hne : text.toList ≠ [] := by
    rw [← List.length_pos_iff, hlength]
    decide
  have hlt : Radix.binary.valueOf text.toList < 2 ^ 32 := by
    rw [← hlength]
    exact Radix.binary.valueOf_lt _ h.isSome_digit?
  have hwrite := Radix.binary.writePadded_valueOf text.toList hne h.isSome_digit?
  rw [hlength, Radix.map_toUpper_of_isDigit text.toList h.2] at hwrite
  rw [toBinary, BitVec.toNat_ofNat, Nat.mod_eq_of_lt hlt, hwrite, String.ofList_toList]

/-- **The binary text of a word** is the only one that is read as the word. -/
theorem ofBinary_eq_ok_iff (text : String) (word : Word) :
    ofBinary text = .ok word ↔ word.toBinary = text := by
  constructor
  · intro h
    by_cases hbinary : IsBinary text
    · rw [ofBinary_of_isBinary text hbinary] at h
      rw [← Except.ok.inj h, toBinary_ofNat_valueOf text hbinary]
    · obtain ⟨reason, hrefused⟩ := ofBinary_of_not_isBinary text hbinary
      rw [hrefused] at h
      simp at h
  · rintro rfl
    exact ofBinary_toBinary word

/-- The texts that are read in binary. -/
theorem exists_ofBinary_iff (text : String) :
    (∃ word, ofBinary text = .ok word) ↔ IsBinary text := by
  constructor
  · rintro ⟨word, h⟩
    rw [← (ofBinary_eq_ok_iff text word).mp h]
    exact word.isBinary_toBinary
  · exact exists_ofBinary text

/-! ## Hexadecimal texts -/

/-- Why a text stands for no word in hexadecimal. -/
inductive HexFault (text : String) : Refusal → Prop where
  /-- Nothing stands there. -/
  | empty (h : text.toList = []) : HexFault text (.malformed text .empty)
  /-- There is a character that is no digit, however long the text is. -/
  | stray (c : Char) (hc : c ∈ text.toList) (h : ¬ IsHexDigit c) :
    HexFault text (.malformed text (.notDigits .hexadecimal))
  /-- The number of the digits needs more bits than a word has. -/
  | overWord (h : ∀ c ∈ text.toList, IsHexDigit c)
    (hword : 0x100000000 ≤ Radix.hexadecimal.valueOf text.toList)
    (hmachine : Radix.hexadecimal.valueOf text.toList < UInt64.size) :
    HexFault text (.fieldTooWide text (.digits .binary) 32)
  /-- The number of the digits needs more bits than a machine word has. -/
  | overMachine (h : ∀ c ∈ text.toList, IsHexDigit c)
    (hmachine : UInt64.size ≤ Radix.hexadecimal.valueOf text.toList) :
    HexFault text (.fieldTooWide text .unsigned 64)

/-- A text has a fault exactly if it is not converted into the bits of a word. -/
theorem hexFault_iff (text : String) (cause : Refusal) :
    HexFault text cause ↔ Radix.ConversionFault .hexadecimal .binary text 32 cause := by
  have hpow : Radix.binary.base ^ 32 = 0x100000000 := by decide
  have hne : Radix.hexadecimal.valueOf text.toList ≠ 0 → text.toList ≠ [] := by
    intro hvalue hnil
    rw [hnil] at hvalue
    exact hvalue rfl
  constructor
  · intro hfault
    cases hfault with
    | empty h => exact .empty h
    | stray c hc h => exact .stray c hc h
    | overWord h hword hmachine =>
      exact .overWidth ⟨hne (by omega), h⟩ hmachine (Or.inr (by rwa [hpow]))
    | overMachine h hmachine =>
      have hsize : 0 < UInt64.size := by decide
      exact .overMachine ⟨hne (by omega), h⟩ hmachine
  · intro hfault
    cases hfault with
    | empty h => exact .empty h
    | stray c hc h => exact .stray c hc h
    | overMachine h hvalue => exact .overMachine h.2 hvalue
    | overWidth h hvalue hwidth =>
      rw [hpow] at hwidth
      exact .overWord h.2 (by omega) hvalue

/-- A fault of a text is the refusal of the text. -/
theorem ofHex_of_hexFault (text : String) (cause : Refusal) (h : HexFault text cause) :
    ofHex text = .error cause := by
  rw [ofHex, Radix.convertField_of_fault 32 (by decide) cause ((hexFault_iff text cause).mp h)]
  rfl

/-- The number of a text that is converted into the bits of a word is that of a word. -/
theorem toNat_ofNat_valueOf (text : String) (h : Radix.HasField .hexadecimal .binary text 32) :
    (BitVec.ofNat 32 (Radix.hexadecimal.valueOf text.toList)).toNat
      = Radix.hexadecimal.valueOf text.toList := by
  rw [BitVec.toNat_ofNat]
  exact Nat.mod_eq_of_lt h.valueOf_lt_pow

/-- A text that is converted into the bits of a word stands for the word of its number. -/
theorem ofHex_of_hasField (text : String) (h : Radix.HasField .hexadecimal .binary text 32) :
    ofHex text = .ok (BitVec.ofNat 32 (Radix.hexadecimal.valueOf text.toList)) := by
  have hbinary : toBinary (BitVec.ofNat 32 (Radix.hexadecimal.valueOf text.toList))
      = String.ofList (Radix.binary.writePadded 32 (Radix.hexadecimal.valueOf text.toList)) := by
    rw [toBinary, toNat_ofNat_valueOf text h]
  rw [ofHex, Radix.convertField_of_hasField 32 (by decide) h, ← hbinary]
  simp only [bind, Except.bind]
  exact ofBinary_toBinary _

/-- **Both outcomes in hexadecimal**: a text that is converted into the bits of a word stands for
the word of its number, and any other text is refused for its fault. -/
theorem ofHex_cases (text : String) :
    (∀ word, ofHex text = .ok word ↔ Radix.HasField .hexadecimal .binary text 32 ∧
      word = BitVec.ofNat 32 (Radix.hexadecimal.valueOf text.toList)) ∧
      ∀ cause, ofHex text = .error cause ↔ HexFault text cause := by
  refine outcome_of_alternative ?_ (ofHex_of_hasField text) (ofHex_of_hexFault text)
  exact (Radix.hasField_or_fault .hexadecimal .binary text 32).imp_right fun ⟨cause, hfault⟩ =>
    ⟨cause, (hexFault_iff text cause).mpr hfault⟩

/-- **The hexadecimal texts of a word**: digits, at least one, whose number is that of the word. -/
theorem ofHex_eq_ok_iff_isHexDigit (text : String) (word : Word) :
    ofHex text = .ok word ↔ text.toList ≠ [] ∧ (∀ c ∈ text.toList, IsHexDigit c) ∧
      word.toNat = Radix.hexadecimal.valueOf text.toList := by
  rw [(ofHex_cases text).1]
  constructor
  · rintro ⟨hfits, rfl⟩
    exact ⟨hfits.isNumeral.1, hfits.isNumeral.2, toNat_ofNat_valueOf text hfits⟩
  · rintro ⟨hne, hall, hvalue⟩
    have hword : word.toNat < 0x100000000 := word.isLt
    refine ⟨⟨⟨hne, hall⟩, by decide, ?_, ?_⟩, ?_⟩
    · rw [← hvalue]
      exact lt_trans hword (by decide)
    · rw [← hvalue]
      exact hword
    · rw [← hvalue, BitVec.ofNat_toNat, BitVec.setWidth_eq]

/-- Every other text has a fault, for which it is refused. -/
theorem ofHex_eq_error_iff (text : String) (cause : Refusal) :
    ofHex text = .error cause ↔ HexFault text cause :=
  (ofHex_cases text).2 cause

/-- Hexadecimal digits stand for the word of their number, if this fits into a word. -/
theorem ofHex_eq_ok_iff (text : String) (word : Word) :
    ofHex text = .ok word ↔
      text.toList ≠ [] ∧ Radix.hexadecimal.read? text.toList = some word.toNat := by
  rw [ofHex_eq_ok_iff_isHexDigit, Radix.read?_eq_some_iff]
  simp only [isSome_digit?_hexadecimal_iff]

/-- The hexadecimal text of a word has eight characters. -/
theorem length_toHex (word : Word) : word.toHex.length = 8 := by
  rw [toHex, String.length_ofList]
  exact Radix.hexadecimal.length_writePadded_of_lt 8 _ (by decide) word.isLt

/-- The hexadecimal text of a word is written with uppercase letters. -/
theorem mem_toHex (word : Word) (c : Char) (hc : c ∈ word.toHex.toList) : c ∈ hexDigits := by
  rw [toHex, String.toList_ofList] at hc
  exact mem_hexDigits_of_mem_writePadded 8 _ c hc

/-- The hexadecimal text of a word is read as its number. -/
theorem read?_toHex (word : Word) :
    Radix.hexadecimal.read? word.toHex.toList = some word.toNat := by
  rw [toHex, String.toList_ofList, Radix.read?_writePadded]

/-- Reading undoes writing in hexadecimal. -/
theorem ofHex_toHex (word : Word) : ofHex word.toHex = .ok word := by
  rw [ofHex_eq_ok_iff]
  refine ⟨?_, word.read?_toHex⟩
  rw [← List.length_pos_iff, String.length_toList, length_toHex]
  decide

/-- The hexadecimal text of a word is the field of its number. -/
theorem isField_toHex (word : Word) : Radix.hexadecimal.IsField 8 word.toNat word.toHex :=
  Radix.hexadecimal.isField_writePadded 8 word.toNat (by decide) word.isLt

/-- The texts that are read in hexadecimal. -/
theorem exists_ofHex_iff (text : String) :
    (∃ word, ofHex text = .ok word) ↔
      Radix.hexadecimal.IsNumeral text ∧ Radix.hexadecimal.valueOf text.toList < 2 ^ 32 := by
  constructor
  · rintro ⟨word, h⟩
    obtain ⟨hne, hdigits, hvalue⟩ := (ofHex_eq_ok_iff_isHexDigit text word).mp h
    rw [← hvalue]
    exact ⟨⟨hne, hdigits⟩, word.isLt⟩
  · rintro ⟨⟨hne, hdigits⟩, hlt⟩
    refine ⟨BitVec.ofNat 32 (Radix.hexadecimal.valueOf text.toList), ?_⟩
    rw [ofHex_eq_ok_iff_isHexDigit, BitVec.toNat_ofNat, Nat.mod_eq_of_lt hlt]
    exact ⟨hne, hdigits, rfl⟩

/-- The bits into which hexadecimal digits are converted always stand for a word. -/
theorem exists_ofBinary_of_convertField (text bits : String)
    (h : Radix.hexadecimal.convertField .binary text 32 = .ok bits) :
    ∃ word, ofBinary bits = .ok word := by
  obtain ⟨hfits, rfl⟩ := (Radix.convertField_eq_ok_iff 32 (by decide) bits).mp h
  have hword := toNat_ofNat_valueOf text hfits
  refine ⟨BitVec.ofNat 32 (Radix.hexadecimal.valueOf text.toList), ?_⟩
  rw [ofBinary_eq_ok_iff, toBinary, hword]

/-! ## Both texts -/

/-- **The texts of words are exact.**  Read in binary are the texts of thirty-two characters, each
zero or one, and no others, and each is the binary text of the word as which it is read.  Read in
hexadecimal are the numerals whose number is that of a word, as this word; once they have been
converted into bits, these always stand for a word.  In return both texts of a word are read as
the word, and its hexadecimal text is the field of its number with eight digits. -/
theorem texts_exact :
    (∀ text : String,
      ((∃ word, ofBinary text = .ok word) ↔ IsBinary text) ∧
      ∀ word, ofBinary text = .ok word ↔ word.toBinary = text) ∧
    (∀ text : String,
      ((∃ word, ofHex text = .ok word) ↔
        Radix.hexadecimal.IsNumeral text ∧ Radix.hexadecimal.valueOf text.toList < 2 ^ 32) ∧
      (∀ word, ofHex text = .ok word → word.toNat = Radix.hexadecimal.valueOf text.toList) ∧
      ∀ bits, Radix.hexadecimal.convertField .binary text 32 = .ok bits →
        ∃ word, ofBinary bits = .ok word) ∧
    ∀ word : Word, ofBinary word.toBinary = .ok word ∧ ofHex word.toHex = .ok word ∧
      Radix.hexadecimal.IsField 8 word.toNat word.toHex := by
  refine ⟨fun text => ⟨exists_ofBinary_iff text, ofBinary_eq_ok_iff text⟩, fun text => ?_,
    fun word => ⟨ofBinary_toBinary word, ofHex_toHex word, word.isField_toHex⟩⟩
  refine ⟨exists_ofHex_iff text, ?_, exists_ofBinary_of_convertField text⟩
  intro word h
  exact ((ofHex_eq_ok_iff_isHexDigit text word).mp h).2.2

/-- Thirty-two bytes that are only sixteen characters, a short numeral with a letter in lower
case, and its bits. -/
theorem texts_exact_of_small :
    ("éééééééééééééééé".utf8ByteSize = 32 ∧
      ¬ ∃ word, ofBinary "éééééééééééééééé" = .ok word) ∧
    (∃ word, ofHex "0aF" = .ok word ∧ word.toNat = 175) ∧
    ∃ word, ofBinary "00000000000000000000000010101111" = .ok word := by
  obtain ⟨hbinary, hhex, -⟩ := texts_exact
  obtain ⟨hread, hnumber, hbits⟩ := hhex "0aF"
  obtain ⟨word, hword⟩ := hread.mpr (by decide)
  refine ⟨⟨by decide, ?_⟩, ⟨word, hword, hnumber word hword⟩, hbits _ (by decide +kernel)⟩
  rw [(hbinary _).1]
  decide

end Word

end MipsListing
