/-
# The grammar of object texts

An object text is accepted exactly if each of its lines is a word: hexadecimal digits, at least
one, whose number fits into a word, behind at most one mark and between blanks.  The first line
that is no word decides about any other text.  It is reported as it stands between its blanks, and
with what is wrong with its digits; a stray character counts before the size of the number.

* `ObjectText.Parts` : a line taken apart into blanks, a mark and what stands for digits;
* `ObjectText.Holds`, `ObjectText.Misses` : the lines that are words, and the others;
* `ObjectText.parse_outcome` : both outcomes of reading an object text.
-/
import MipsListing.Proofs.ObjectText

namespace MipsListing.ObjectText

variable {line : List Char} {mark : Mark} {digits : List Char}

/-! ## The parts of a line -/

/-- A line taken apart: between blanks a mark, which may be missing, and what stands in the place
of digits.  A mark that is there is taken as the mark, but only the first one is. -/
structure Parts (line : List Char) (mark : Mark) (digits : List Char) : Prop where
  trimmed : Text.Trimmed line (mark.text ++ digits)
  marked : mark = .bare → ∀ other : Mark, other ≠ .bare → ¬ other.text <+: digits

/-- Without a mark in front nothing is taken away. -/
theorem stripMark_of_unmarked (digits : List Char)
    (h : ∀ other : Mark, other ≠ .bare → ¬ other.text <+: digits) : stripMark digits = digits := by
  unfold stripMark
  split
  · exact absurd (List.prefix_append _ _) (h .lower (by decide))
  · exact absurd (List.prefix_append _ _) (h .upper (by decide))
  · rfl

/-- What trimming leaves of a line is its mark and its digits. -/
theorem Parts.trim_eq (h : Parts line mark digits) : Text.trim line = mark.text ++ digits :=
  (Text.trim_eq_iff _ _).mpr h.trimmed

/-- What is left without blanks and mark are the digits. -/
theorem Parts.stripMark_trim (h : Parts line mark digits) :
    stripMark (Text.trim line) = digits := by
  rw [h.trim_eq]
  cases hmark : mark with
  | bare => exact stripMark_of_unmarked digits (h.marked hmark)
  | lower => exact stripMark_lower digits
  | upper => exact stripMark_upper digits

/-- Every line can be taken apart. -/
theorem exists_parts (line : List Char) :
    ∃ mark, Parts line mark (stripMark (Text.trim line)) := by
  suffices hmark : ∀ content, ∃ mark : Mark, content = mark.text ++ stripMark content ∧
      (mark = .bare → ∀ other : Mark, other ≠ .bare → ¬ other.text <+: stripMark content) by
    obtain ⟨mark, hcontent, hmarked⟩ := hmark (Text.trim line)
    exact ⟨mark, (Text.trim_eq_iff _ _).mp hcontent, hmarked⟩
  intro content
  unfold stripMark
  split
  · exact ⟨.lower, rfl, by simp⟩
  · exact ⟨.upper, rfl, by simp⟩
  · rename_i hlower hupper
    refine ⟨.bare, rfl, fun _ other hother => ?_⟩
    rintro ⟨rest, rfl⟩
    cases other with
    | bare => exact hother rfl
    | lower => exact hlower rest rfl
    | upper => exact hupper rest rfl

/-! ## Lines and words -/

/-- A line holds a word: its digits are hexadecimal, and their number is that of the word. -/
def Holds (line : List Char) (word : Word) : Prop :=
  ∃ mark digits, Parts line mark digits ∧ digits ≠ [] ∧ (∀ c ∈ digits, Word.IsHexDigit c) ∧
    word.toNat = Radix.hexadecimal.valueOf digits

/-- A line holds no word: its digits have a fault.  It is shown without its blanks, but with its
mark. -/
def Misses (line : List Char) (shown : String) (cause : Refusal) : Prop :=
  ∃ mark digits, Parts line mark digits ∧ shown = String.ofList (mark.text ++ digits) ∧
    Word.HexFault (String.ofList digits) cause

/-- A line is read as the word that it holds. -/
theorem parseLine_eq_ok_iff_holds (line : List Char) (index : ℕ) (word : Word) :
    parseLine line index = .ok word ↔ Holds line word := by
  rw [parseLine, mapError_eq_ok_iff, Word.ofHex_eq_ok_iff_isHexDigit, String.toList_ofList]
  constructor
  · intro h
    obtain ⟨mark, hparts⟩ := exists_parts line
    exact ⟨mark, _, hparts, h⟩
  · rintro ⟨mark, digits, hparts, h⟩
    rwa [hparts.stripMark_trim]

/-- A line that holds no word is refused for that. -/
theorem parseLine_eq_error_iff (line : List Char) (index : ℕ) (error : LineRefusal) :
    parseLine line index = .error error ↔
      error.line = index + 1 ∧ Misses line error.word error.cause := by
  simp only [parseLine, mapError_eq_error_iff, Word.ofHex_eq_error_iff]
  constructor
  · rintro ⟨cause, hfault, rfl⟩
    obtain ⟨mark, hparts⟩ := exists_parts line
    exact ⟨rfl, mark, _, hparts, congrArg String.ofList hparts.trim_eq, hfault⟩
  · rintro ⟨hline, mark, digits, hparts, hword, hfault⟩
    refine ⟨error.cause, by rwa [hparts.stripMark_trim], ?_⟩
    rw [hparts.trim_eq, ← hword, ← hline]

/-- **The two outcomes of reading.**  A text has its lines in one way only.  It is read as a program
exactly if its lines hold the words of the program, in order.  It is refused exactly for its first
line that holds no word, which is counted from one. -/
theorem parse_outcome (text : String) :
    ∃ lines, (∀ other, Text.Lines text.toList other ↔ other = lines) ∧
      (∀ program, parse text = .ok program ↔ List.Forall₂ Holds lines program) ∧
      ∀ error, parse text = .error error ↔ ∃ (i : ℕ) (hi : i < lines.length),
        error.line = i + 1 ∧ Misses lines[i] error.word error.cause ∧
        ∀ (j : ℕ) (hj : j < lines.length), j < i → ∃ word, Holds lines[j] word := by
  refine ⟨Text.physicalLines text.toList, ?_, ?_, ?_⟩
  · intro other
    rw [← Text.physicalLines_eq_iff, eq_comm]
  · intro program
    rw [parse, mapM_zipIdx_eq_ok_iff, List.forall₂_iff_get]
    simp only [parseLine_eq_ok_iff_holds, List.get_eq_getElem]
  · intro error
    simp only [parse, mapM_zipIdx_eq_error_iff, parseLine_eq_error_iff, parseLine_eq_ok_iff_holds,
      and_assoc]

/-- Of two marks the second is none, and of a line that is no word only the first counts. -/
example : parse "0X00\n 0x0xFF\n\n" = .error
    { line := 2, word := "0x0xFF", cause := .malformed "0xFF" (.notDigits .hexadecimal) } := by
  decide +kernel

end MipsListing.ObjectText
