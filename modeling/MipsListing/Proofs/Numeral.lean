/-
# Written numerals

What is written in a radix is read back as the number that was written, however many zeros stand
in front of it.  So a number is determined by its numeral, a numeral consists of digits only, and
the width that a number needs is the number of digits of its shortest numeral.  In return a text
of digits is determined by its length and its value, but for the case of its letters, so what is
read is written again as it was.

* `Radix.read?_eq_some_iff` : what can be read, and the number that it is read as;
* `Radix.read?_writePadded` : reading undoes writing;
* `Radix.writePadded_injective` : different numbers have different numerals;
* `Radix.length_writePadded_le_iff` : which numbers fit a width;
* `Radix.map_toUpper_eq_of_valueOf_eq` : texts of one length and one value;
* `Radix.valueOf_append` : the value of a text put together;
* `Radix.writePadded_valueOf`, `Radix.writePadded_valueOf_of_lt` : writing undoes reading;
* `eq_minus_or_isDigit_of_mem_toString` : the characters of decimal numerals.
-/
import MipsListing.Numeral
import MipsListing.Proofs.Reading

namespace MipsListing

/-- The digit that stands for a value below sixteen counts as that value. -/
theorem digitValue?_toUpper_digitChar (d : ℕ) (h : d < 16) :
    digitValue? d.digitChar.toUpper = some d := by
  interval_cases d <;> decide

/-- A digit with an uppercase letter is the digit that stands for its value. -/
theorem toUpper_of_digitValue? (c : Char) (d : ℕ) (h : digitValue? c = some d) :
    c.toUpper = d.digitChar.toUpper := by
  -- the characters that have values are those of three ranges
  have hrange : ('0'.toNat ≤ c.toNat ∧ c.toNat ≤ '9'.toNat) ∨
      ('a'.toNat ≤ c.toNat ∧ c.toNat ≤ 'f'.toNat) ∨
      ('A'.toNat ≤ c.toNat ∧ c.toNat ≤ 'F'.toNat) := by
    unfold digitValue? at h
    split_ifs at h with hdecimal hlower hupper
    · exact Or.inl hdecimal
    · exact Or.inr (Or.inl hlower)
    · exact Or.inr (Or.inr hupper)
  simp only [Char.reduceToNat] at hrange
  rw [← Char.ofNat_toNat c] at h ⊢
  generalize c.toNat = code at hrange h ⊢
  rcases hrange with ⟨hlow, hhigh⟩ | ⟨hlow, hhigh⟩ | ⟨hlow, hhigh⟩
  all_goals
    interval_cases code
    all_goals
      obtain rfl := Option.some.inj h
      rfl

/-- Zero is the only digit that counts nothing. -/
theorem eq_zero_of_digitValue? (c : Char) (h : digitValue? c = some 0) : c = '0' := by
  unfold digitValue? at h
  split_ifs at h with hdecimal
  all_goals have hvalue := Option.some.inj h
  · have hle : '0'.toNat ≤ c.toNat := hdecimal.1
    exact Char.toNat_inj.mp (by omega)
  · omega
  · omega

namespace Radix

/-- Every radix has at least two digits. -/
theorem one_lt_base (radix : Radix) : 1 < radix.base := by
  cases radix <;> decide

/-- No radix has more than sixteen digits. -/
theorem base_le (radix : Radix) : radix.base ≤ 16 := by
  cases radix <;> decide

/-! ## The value of a numeral -/

/-- The value of the digits of a text, each by its place from the right. -/
def valueOf (radix : Radix) (text : List Char) : ℕ :=
  Nat.ofDigits radix.base (text.reverse.map fun c => (radix.digit? c).getD 0)

/-- Reading from the left gives every digit the weight of its place. -/
theorem ofDigits_eq (radix : Radix) (digits : List ℕ) :
    radix.ofDigits digits = Nat.ofDigits radix.base digits.reverse := by
  rw [ofDigits, Nat.ofDigits_eq_foldr, List.foldr_reverse]
  simp [Nat.add_comm]

/-- Digits are read one by one. -/
theorem mapM_digit?_eq_some_iff (radix : Radix) (text : List Char) (digits : List ℕ) :
    text.mapM radix.digit? = some digits ↔
      (∀ c ∈ text, (radix.digit? c).isSome) ∧
        digits = text.map fun c => (radix.digit? c).getD 0 := by
  rw [mapM_eq_some_iff]
  constructor
  · intro h
    induction h with
    | nil => simp
    | cons hc _ ih => simp [hc, ih.2]; exact ih.1
  · rintro ⟨hall, rfl⟩
    rw [List.forall₂_map_right_iff, List.forall₂_same]
    intro c hc
    obtain ⟨d, hd⟩ := Option.isSome_iff_exists.mp (hall c hc)
    rw [hd]
    rfl

/-- **What a text is read as**: it consists of digits, and their value. -/
theorem read?_eq_some_iff (radix : Radix) (text : List Char) (value : ℕ) :
    radix.read? text = some value ↔
      (∀ c ∈ text, (radix.digit? c).isSome) ∧ value = radix.valueOf text := by
  simp only [read?, Option.map_eq_some_iff, mapM_digit?_eq_some_iff, valueOf, ofDigits_eq,
    List.map_reverse]
  constructor
  · rintro ⟨_, ⟨hall, rfl⟩, rfl⟩
    exact ⟨hall, rfl⟩
  · rintro ⟨hall, rfl⟩
    exact ⟨_, ⟨hall, rfl⟩, rfl⟩

/-! ## Reading what was written -/

/-- The digit that stands for a value is read as that value. -/
theorem digit?_toUpper_digitChar (radix : Radix) (d : ℕ) (h : d < radix.base) :
    radix.digit? d.digitChar.toUpper = some d := by
  unfold digit?
  rw [digitValue?_toUpper_digitChar d (lt_of_lt_of_le h radix.base_le)]
  simp [Option.filter, h]

/-- One more digit at the end multiplies what stands before it by the base. -/
theorem read?_append_digit (radix : Radix) (text : List Char) (c : Char) (value d : ℕ)
    (ht : radix.read? text = some value) (hc : radix.digit? c = some d) :
    radix.read? (text ++ [c]) = some (radix.base * value + d) := by
  unfold read? at ht ⊢
  rw [Option.map_eq_some_iff] at ht ⊢
  obtain ⟨digits, hdigits, rfl⟩ := ht
  refine ⟨digits ++ [d], ?_, ?_⟩
  · rw [List.mapM_append, hdigits]
    simp [hc]
  · unfold ofDigits
    rw [List.foldl_append, List.foldl_cons, List.foldl_nil]

/-- A zero in front changes nothing. -/
theorem read?_cons_zero (radix : Radix) (text : List Char) :
    radix.read? ('0' :: text) = radix.read? text := by
  have h0 : radix.digit? '0' = some 0 := by cases radix <;> decide
  unfold read?
  rw [List.mapM_cons, h0]
  cases text.mapM radix.digit? with
  | none => rfl
  | some digits => simp [ofDigits]

/-- The shortest numeral of a number is read as that number. -/
theorem read?_write (radix : Radix) (value : ℕ) :
    radix.read? (radix.write value) = some value := by
  -- a number of more than one digit is written by one more digit behind a smaller number
  induction value using Nat.base_induction radix.base radix.one_lt_base with
  | single m hm =>
    rw [write, Nat.toDigits_of_lt_base hm]
    simpa using read?_append_digit radix [] _ 0 m rfl (digit?_toUpper_digitChar radix m hm)
  | digit m k hk hm ih =>
    rw [write, ← Nat.toDigits_append_toDigits radix.one_lt_base hm hk,
      Nat.toDigits_of_lt_base hk, List.map_append]
    exact read?_append_digit radix _ _ m k ih (digit?_toUpper_digitChar radix k hk)

/-- **Reading undoes writing.**  A padded numeral is read as the number that was written. -/
theorem read?_writePadded (radix : Radix) (width value : ℕ) :
    radix.read? (radix.writePadded width value) = some value := by
  have hpad : ∀ n : ℕ, radix.read? (List.replicate n '0' ++ radix.write value) = some value := by
    intro n
    induction n with
    | zero => simpa using read?_write radix value
    | succ n ih => rw [List.replicate_succ, List.cons_append, read?_cons_zero, ih]
  exact hpad _

/-- Different numbers have different numerals of a width. -/
theorem writePadded_injective (radix : Radix) (width : ℕ) :
    Function.Injective (radix.writePadded width) := by
  intro a b h
  have hread := congrArg radix.read? h
  rw [read?_writePadded, read?_writePadded] at hread
  exact Option.some.inj hread

/-! ## The characters of a numeral -/

/-- A numeral consists of digits. -/
theorem isSome_digit?_of_mem_writePadded (radix : Radix) (width value : ℕ) (c : Char)
    (hc : c ∈ radix.writePadded width value) : (radix.digit? c).isSome :=
  ((radix.read?_eq_some_iff _ value).mp (radix.read?_writePadded width value)).1 c hc

/-- A numeral is written with the digits for values below the base. -/
theorem exists_digit_of_mem_write (radix : Radix) (value : ℕ) :
    ∀ c ∈ radix.write value, ∃ d < radix.base, c = d.digitChar.toUpper := by
  induction value using Nat.base_induction radix.base radix.one_lt_base with
  | single m hm =>
    rw [write, Nat.toDigits_of_lt_base hm]
    simpa using ⟨m, hm, rfl⟩
  | digit m k hk hm ih =>
    rw [write, ← Nat.toDigits_append_toDigits radix.one_lt_base hm hk,
      Nat.toDigits_of_lt_base hk, List.map_append]
    intro c hc
    rcases List.mem_append.mp hc with hc | hc
    · exact ih c hc
    · exact ⟨k, hk, by simpa using hc⟩

/-- A padded numeral is written with the digits for values below the base. -/
theorem exists_digit_of_mem_writePadded (radix : Radix) (width value : ℕ) (c : Char)
    (hc : c ∈ radix.writePadded width value) : ∃ d < radix.base, c = d.digitChar.toUpper := by
  have hc : c ∈ List.replicate (width - (radix.write value).length) '0' ++ radix.write value := hc
  rcases List.mem_append.mp hc with hc | hc
  · have hpos : 0 < radix.base := by
      have := radix.one_lt_base
      omega
    exact ⟨0, hpos, List.eq_of_mem_replicate hc⟩
  · exact radix.exists_digit_of_mem_write value c hc

/-! ## The width of a numeral -/

/-- A number fits a width exactly if its shortest numeral does. -/
theorem length_writePadded_le_iff (radix : Radix) (width value : ℕ) (hw : 0 < width) :
    (radix.writePadded width value).length ≤ width ↔ value < radix.base ^ width := by
  rw [writePadded, List.length_leftpad, write, List.length_map, max_le_iff,
    Nat.length_toDigits_le_iff radix.one_lt_base hw]
  simp

/-- A number that fits a width has a numeral of exactly this width. -/
theorem length_writePadded_of_lt (radix : Radix) (width value : ℕ) (hw : 0 < width)
    (h : value < radix.base ^ width) : (radix.writePadded width value).length = width := by
  have hle := (radix.length_writePadded_le_iff width value hw).mpr h
  rw [writePadded, List.length_leftpad] at hle ⊢
  omega

/-! ## Texts of one length -/

/-- The value of a digit lies below the base. -/
theorem lt_base_of_digit? (radix : Radix) (c : Char) (d : ℕ) (h : radix.digit? c = some d) :
    d < radix.base := by
  simpa using (Option.filter_eq_some_iff.mp h).2

/-- The digits of a text with uppercase letters are determined by their values. -/
theorem map_toUpper_eq (radix : Radix) (text : List Char)
    (h : ∀ c ∈ text, (radix.digit? c).isSome) :
    text.map Char.toUpper
      = (text.map fun c => (radix.digit? c).getD 0).map fun d => d.digitChar.toUpper := by
  rw [List.map_map]
  apply List.map_congr_left
  intro c hc
  obtain ⟨d, hd⟩ := Option.isSome_iff_exists.mp (h c hc)
  rw [Function.comp_apply, hd]
  exact toUpper_of_digitValue? c d (Option.filter_eq_some_iff.mp hd).1

/-- **A numeral is determined by its length and its value**, but for the case of its letters. -/
theorem map_toUpper_eq_of_valueOf_eq (radix : Radix) (a b : List Char)
    (ha : ∀ c ∈ a, (radix.digit? c).isSome) (hb : ∀ c ∈ b, (radix.digit? c).isSome)
    (hlength : a.length = b.length) (hvalue : radix.valueOf a = radix.valueOf b) :
    a.map Char.toUpper = b.map Char.toUpper := by
  have hlt : ∀ text : List Char, (∀ c ∈ text, (radix.digit? c).isSome) →
      ∀ d ∈ text.reverse.map fun c => (radix.digit? c).getD 0, d < radix.base := by
    intro text htext d hd
    obtain ⟨c, hc, rfl⟩ := List.mem_map.mp hd
    obtain ⟨d, hd⟩ := Option.isSome_iff_exists.mp (htext c (List.mem_reverse.mp hc))
    rw [hd]
    exact radix.lt_base_of_digit? c d hd
  have hdigits := Nat.ofDigits_inj_of_len_eq radix.one_lt_base (by simp [hlength])
    (hlt a ha) (hlt b hb) hvalue
  rw [List.map_reverse, List.map_reverse, List.reverse_inj] at hdigits
  rw [radix.map_toUpper_eq a ha, radix.map_toUpper_eq b hb, hdigits]

/-- Digits in front count for as many powers of the base as there are digits behind them. -/
theorem valueOf_append (radix : Radix) (front back : List Char) :
    radix.valueOf (front ++ back)
      = radix.valueOf front * radix.base ^ back.length + radix.valueOf back := by
  rw [valueOf, List.reverse_append, List.map_append, Nat.ofDigits_append, List.length_map,
    List.length_reverse, ← valueOf, ← valueOf]
  ring

/-- The first digit counts for as many powers of the base as there are digits behind it. -/
theorem valueOf_cons (radix : Radix) (c : Char) (text : List Char) :
    radix.valueOf (c :: text)
      = (radix.digit? c).getD 0 * radix.base ^ text.length + radix.valueOf text := by
  rw [← List.singleton_append, valueOf_append]
  simp only [valueOf, List.reverse_singleton, List.map_cons, List.map_nil, Nat.ofDigits_singleton]

/-- The value of a text lies below the power of the base for its length. -/
theorem valueOf_lt (radix : Radix) (text : List Char)
    (h : ∀ c ∈ text, (radix.digit? c).isSome) :
    radix.valueOf text < radix.base ^ text.length := by
  induction text with
  | nil => exact Nat.one_pos
  | cons c text ih =>
    obtain ⟨d, hd⟩ := Option.isSome_iff_exists.mp (h c List.mem_cons_self)
    have hdigit := radix.lt_base_of_digit? c d hd
    have htext := ih fun x hx => h x (List.mem_cons_of_mem c hx)
    rw [valueOf_cons, hd, Option.getD_some, List.length_cons, pow_succ, Nat.mul_comm _ radix.base]
    calc d * radix.base ^ text.length + radix.valueOf text
        < d * radix.base ^ text.length + radix.base ^ text.length := Nat.add_lt_add_left htext _
      _ = (d + 1) * radix.base ^ text.length := by ring
      _ ≤ radix.base * radix.base ^ text.length := Nat.mul_le_mul_right _ hdigit

/-- A zero in front does not count. -/
theorem valueOf_cons_zero (radix : Radix) (text : List Char) :
    radix.valueOf ('0' :: text) = radix.valueOf text := by
  have hzero : radix.digit? '0' = some 0 := by cases radix <;> decide
  rw [valueOf_cons, hzero, Option.getD_some, Nat.zero_mul, Nat.zero_add]

/-- Zeros may be taken away in front. -/
theorem valueOf_dropWhile (radix : Radix) (text : List Char) :
    radix.valueOf (text.dropWhile (· == '0')) = radix.valueOf text := by
  induction text with
  | nil => rfl
  | cons c text ih =>
    by_cases hc : c = '0'
    · subst hc
      rw [List.dropWhile_cons_of_pos (by decide), ih, valueOf_cons_zero]
    · rw [List.dropWhile_cons_of_neg (by simpa using hc)]

/-- Zeros may be filled up in front. -/
theorem valueOf_leftpad (radix : Radix) (width : ℕ) (text : List Char) :
    radix.valueOf (text.leftpad width '0') = radix.valueOf text := by
  rw [List.leftpad]
  induction width - text.length with
  | zero => rfl
  | succ n ih => rw [List.replicate_succ, List.cons_append, valueOf_cons_zero, ih]

/-- Without zeros in front a numeral is no longer than the width that its value fits. -/
theorem length_dropWhile_le (radix : Radix) (text : List Char)
    (h : ∀ c ∈ text, (radix.digit? c).isSome) (width : ℕ)
    (hfits : radix.valueOf text < radix.base ^ width) :
    (text.dropWhile (· == '0')).length ≤ width := by
  rw [← radix.valueOf_dropWhile] at hfits
  have hmem := List.dropWhile_sublist (· == '0') (l := text)
  cases hrest : text.dropWhile (· == '0') with
  | nil => simp
  | cons c rest =>
    -- the first digit that is left is no zero, so it counts for a power of the base
    have hhead := List.head?_dropWhile_not (· == '0') text
    rw [hrest] at hfits hhead hmem
    obtain ⟨d, hd⟩ := Option.isSome_iff_exists.mp (h c (hmem.subset List.mem_cons_self))
    have hpos : 0 < d := by
      rcases Nat.eq_zero_or_pos d with rfl | hpos
      · rw [eq_zero_of_digitValue? c (Option.filter_eq_some_iff.mp hd).1] at hhead
        simp at hhead
      · exact hpos
    rw [valueOf_cons, hd, Option.getD_some] at hfits
    have hlt : radix.base ^ rest.length < radix.base ^ width :=
      calc radix.base ^ rest.length ≤ d * radix.base ^ rest.length := Nat.le_mul_of_pos_left _ hpos
        _ ≤ d * radix.base ^ rest.length + radix.valueOf rest := Nat.le_add_right _ _
        _ < radix.base ^ width := hfits
    exact (Nat.pow_lt_pow_iff_right radix.one_lt_base).mp hlt

/-! ## Writing what was read -/

/-- A numeral is written with uppercase letters. -/
theorem map_toUpper_writePadded (radix : Radix) (width value : ℕ) :
    (radix.writePadded width value).map Char.toUpper = radix.writePadded width value := by
  rw [List.map_congr_left (g := id), List.map_id]
  intro c hc
  obtain ⟨d, hd, rfl⟩ := radix.exists_digit_of_mem_writePadded width value c hc
  have hd : d < 16 := lt_of_lt_of_le hd radix.base_le
  interval_cases d <;> decide

/-- **Writing undoes reading.**  The value of a text is written in the width of the text as the
text itself, but with uppercase letters. -/
theorem writePadded_valueOf (radix : Radix) (text : List Char) (hne : text ≠ [])
    (h : ∀ c ∈ text, (radix.digit? c).isSome) :
    radix.writePadded text.length (radix.valueOf text) = text.map Char.toUpper := by
  have hlt := radix.valueOf_lt text h
  have hpos := List.length_pos_iff.mpr hne
  have hread := (radix.read?_eq_some_iff _ _).mp
    (radix.read?_writePadded text.length (radix.valueOf text))
  rw [← radix.map_toUpper_writePadded]
  exact radix.map_toUpper_eq_of_valueOf_eq _ text hread.1 h
    (radix.length_writePadded_of_lt _ _ hpos hlt) hread.2.symm

/-- In any width that the value of a text fits, it is written as the text with another number of
zeros in front. -/
theorem writePadded_valueOf_of_lt (radix : Radix) (text : List Char)
    (h : ∀ c ∈ text, (radix.digit? c).isSome) (width : ℕ) (hwidth : 0 < width)
    (hfits : radix.valueOf text < radix.base ^ width) :
    radix.writePadded width (radix.valueOf text)
      = ((text.dropWhile (· == '0')).leftpad width '0').map Char.toUpper := by
  have hlength : ((text.dropWhile (· == '0')).leftpad width '0').length = width := by
    rw [List.length_leftpad]
    exact max_eq_left (radix.length_dropWhile_le text h width hfits)
  have hvalue : radix.valueOf ((text.dropWhile (· == '0')).leftpad width '0')
      = radix.valueOf text := by
    rw [valueOf_leftpad, valueOf_dropWhile]
  have hdigits : ∀ c ∈ (text.dropWhile (· == '0')).leftpad width '0',
      (radix.digit? c).isSome := by
    intro c hc
    rcases List.mem_append.mp hc with hc | hc
    · rw [List.eq_of_mem_replicate hc]
      cases radix <;> decide
    · exact h c ((List.dropWhile_sublist _).subset hc)
  have hne : (text.dropWhile (· == '0')).leftpad width '0' ≠ [] := by
    rw [← List.length_pos_iff, hlength]
    exact hwidth
  rw [← hvalue]
  nth_rewrite 1 [← hlength]
  exact radix.writePadded_valueOf _ hne hdigits

end Radix

/-! ## Decimal numerals -/

/-- The characters of a decimal numeral. -/
theorem isDigit_of_mem_toString (value : ℕ) (c : Char) (hc : c ∈ (toString value).toList) :
    c.isDigit := by
  rw [Nat.toString_eq_repr, Nat.toList_repr] at hc
  exact Nat.isDigit_of_mem_toDigits (by decide) (by decide) hc

/-- The characters of a signed decimal numeral. -/
theorem eq_minus_or_isDigit_of_mem_toString (value : ℤ) (c : Char)
    (hc : c ∈ (toString value).toList) : c = '-' ∨ c.isDigit := by
  rw [Int.toString_eq_repr, Int.repr_eq_if] at hc
  split at hc
  · exact Or.inr (isDigit_of_mem_toString _ c hc)
  · rw [String.toList_append, List.mem_append] at hc
    rcases hc with hc | hc
    · exact Or.inl (by simpa using hc)
    · exact Or.inr (isDigit_of_mem_toString _ c hc)

end MipsListing
