/-
# Programs as texts

A program can be given as binary texts, one for each word, or as an object text, one physical line
for each word.  Both are read as the words from which they were written, however an object text
marks its words and ends its lines.  Of several binary texts the first malformed one is reported,
before any word is decoded.  No line of an object text is skipped or split, so a word stands at the
position of its line, and what is reported of a word points at its line.

* `ObjectText.parse_eq_ok_iff` : which program an object text holds;
* `Listing.entrances_agree` : words, binary texts and object texts give the same listing;
* `Listing.refusal_at_physical_line` : the line and the word that a refusal reports.
-/
import MipsListing.Word
import MipsListing.Proofs.Text
import MipsListing.Proofs.Reading
import MipsListing.Proofs.Safety
import MipsListing.Proofs.WordText

namespace MipsListing

/-! ## Binary texts -/

/-- Binary texts of words are read as the words. -/
theorem Word.listOfBinary_toBinary (program : List Word) :
    Word.listOfBinary (program.map Word.toBinary) = .ok program := by
  rw [listOfBinary, mapM_zipIdx_eq_ok_iff]
  refine ⟨by simp, fun i hi hi' => ?_⟩
  simp only [List.getElem_map, ofBinary_toBinary]
  rfl

/-- The first text that is no binary text of a word is malformed. -/
theorem Word.listOfBinary_of_not_isBinary (texts : List String) (i : ℕ) (hi : i < texts.length)
    (h : ¬ IsBinary texts[i])
    (hbefore : ∀ (j : ℕ) (hj : j < texts.length), j < i → IsBinary texts[j]) :
    ∃ reason, Word.listOfBinary texts =
      .error { line := i + 1, word := texts[i], cause := .malformed texts[i] reason } := by
  obtain ⟨reason, hreason⟩ := ofBinary_of_not_isBinary texts[i] h
  refine ⟨reason, (mapM_zipIdx_eq_error_iff _ texts _).mpr ⟨i, hi, ?_, ?_⟩⟩
  · simp only [hreason]
    rfl
  · intro j hj hlt
    obtain ⟨word, hword⟩ := exists_ofBinary texts[j] (hbefore j hj hlt)
    exact ⟨word, by simp only [hword]; rfl⟩

namespace ObjectText

/-! ## The word on a line -/

/-- The number that a physical line stands for, whatever blanks and mark it has. -/
def lineValue? (line : List Char) : Option ℕ :=
  let digits := stripMark (Text.trim line)
  if digits = [] then none else Radix.hexadecimal.read? digits

/-- A line holds the word of its number. -/
theorem parseLine_eq_ok_iff (line : List Char) (index : ℕ) (word : Word) :
    parseLine line index = .ok word ↔ lineValue? line = some word.toNat := by
  rw [parseLine, mapError_eq_ok_iff, Word.ofHex_eq_ok_iff, String.toList_ofList, lineValue?]
  split_ifs with hempty <;> simp [hempty]

/-- **An object text** holds one word on each of its lines. -/
theorem parse_eq_ok_iff (text : String) (program : List Word) :
    parse text = .ok program ↔
      (Text.physicalLines text.toList).length = program.length ∧
      ∀ (i : ℕ) (hi : i < (Text.physicalLines text.toList).length) (hi' : i < program.length),
        lineValue? (Text.physicalLines text.toList)[i] = some program[i].toNat := by
  rw [parse, mapM_zipIdx_eq_ok_iff]
  simp only [parseLine_eq_ok_iff]

/-! ## Written lines -/

/-- What can stand in front of the digits of a word. -/
inductive Mark where
  | bare
  | lower
  | upper
  deriving DecidableEq, Repr

/-- The characters of a mark. -/
def Mark.text : Mark → List Char
  | bare => []
  | lower => ['0', 'x']
  | upper => ['0', 'X']

/-- What can end a line. -/
inductive LineEnd where
  | lf
  | crlf
  deriving DecidableEq, Repr

/-- The characters of a line end. -/
def LineEnd.text : LineEnd → List Char
  | lf => ['\n']
  | crlf => ['\r', '\n']

/-- A word with the mark in front of its digits and the end of its line. -/
structure WrittenLine where
  word : Word
  mark : Mark
  lineEnd : LineEnd
  deriving DecidableEq, Repr

/-- What stands on a written line. -/
def WrittenLine.content (line : WrittenLine) : List Char :=
  line.mark.text ++ line.word.toHex.toList

/-- The text of written lines.  The last one may be left without its end. -/
def write (ended : Bool) : List WrittenLine → List Char
  | [] => []
  | line :: rest =>
    line.content ++ (if rest.isEmpty && !ended then [] else line.lineEnd.text) ++ write ended rest

/-- Trimming leaves a text without blanks and takes the blanks behind it away. -/
theorem trim_append (text blanks : List Char) (htext : ∀ c ∈ text, Text.isBlank c = false)
    (hblanks : ∀ c ∈ blanks, Text.isBlank c = true) : Text.trim (text ++ blanks) = text := by
  rw [Text.trim_eq_iff]
  exact ⟨⟨[], blanks, rfl, by simp, hblanks⟩, fun c hc => htext c (List.mem_of_mem_head? hc),
    fun c hc => htext c (List.mem_of_getLast? hc)⟩

/-- Without an `x` there is no mark to be taken away. -/
theorem stripMark_of_not_mem (digits : List Char) (hlower : 'x' ∉ digits)
    (hupper : 'X' ∉ digits) : stripMark digits = digits := by
  unfold stripMark
  split
  · simp at hlower
  · simp at hupper
  · rfl

/-- The mark `0x` is taken away. -/
theorem stripMark_lower (digits : List Char) : stripMark (Mark.lower.text ++ digits) = digits :=
  rfl

/-- The mark `0X` is taken away. -/
theorem stripMark_upper (digits : List Char) : stripMark (Mark.upper.text ++ digits) = digits :=
  rfl

/-- The characters of a written line. -/
theorem WrittenLine.mem_content (line : WrittenLine) (c : Char) (hc : c ∈ line.content) :
    c ∈ Word.hexDigits ++ ['x', 'X'] := by
  rcases List.mem_append.mp hc with hc | hc
  · have hmark : ∀ mark : Mark, mark.text ⊆ Word.hexDigits ++ ['x', 'X'] := by
      intro mark
      cases mark <;> simp [Mark.text, Word.hexDigits]
    exact hmark line.mark hc
  · exact List.mem_append_left _ (line.word.mem_toHex c hc)

/-- Without mark and blanks a written line is the hexadecimal text of its word. -/
theorem WrittenLine.stripMark_trim (line : WrittenLine) (blanks : List Char)
    (hblanks : ∀ c ∈ blanks, Text.isBlank c = true) :
    stripMark (Text.trim (line.content ++ blanks)) = line.word.toHex.toList := by
  have hchars : ∀ c ∈ Word.hexDigits ++ ['x', 'X'], Text.isBlank c = false := by
    have hall : (Word.hexDigits ++ ['x', 'X']).all (!Text.isBlank ·) = true := by decide
    simpa using List.all_eq_true.mp hall
  rw [trim_append _ _ (fun c hc => hchars c (line.mem_content c hc)) hblanks, content]
  cases line.mark with
  | bare =>
    have hlower : 'x' ∉ Word.hexDigits := by decide
    have hupper : 'X' ∉ Word.hexDigits := by decide
    rw [Mark.text, List.nil_append]
    exact stripMark_of_not_mem _ (fun hx => hlower (line.word.mem_toHex _ hx))
      (fun hx => hupper (line.word.mem_toHex _ hx))
  | lower => exact stripMark_lower _
  | upper => exact stripMark_upper _

/-- The lines of a written text are the written lines. -/
theorem forall₂_physicalLines_write (ended : Bool) (lines : List WrittenLine) :
    List.Forall₂ (fun line written => stripMark (Text.trim line) = written.word.toHex.toList)
      (Text.physicalLines (write ended lines)) lines := by
  have hfeed : ∀ line : WrittenLine, '\n' ∉ line.content := by
    intro line hmem
    exact absurd (line.mem_content _ hmem) (by decide)
  induction lines with
  | nil => exact .nil
  | cons line rest ih =>
    rw [write]
    split
    · -- the last line is left without its end
      rename_i hopen
      obtain rfl : rest = [] := by simp_all
      have hne : line.content ≠ [] := by
        have := line.word.length_toHex
        intro hnil
        obtain ⟨-, hhex⟩ := List.append_eq_nil_iff.mp hnil
        rw [← String.length_toList, hhex] at this
        simp at this
      have hline := line.stripMark_trim [] (by simp)
      rw [List.append_nil] at hline
      rw [write, List.append_nil, List.append_nil,
        Text.physicalLines_of_not_mem _ (hfeed line) hne]
      exact .cons hline .nil
    · cases hend : line.lineEnd with
      | lf =>
        have hline := line.stripMark_trim [] (by simp)
        rw [List.append_nil] at hline
        rw [LineEnd.text, List.append_assoc, List.singleton_append,
          Text.physicalLines_append_cons _ _ (hfeed line)]
        exact .cons hline ih
      | crlf =>
        have hline := line.stripMark_trim ['\r'] (by simpa using by decide)
        have hbody : '\n' ∉ line.content ++ ['\r'] := by simp [hfeed line]
        have hsplit : line.content ++ LineEnd.crlf.text ++ write ended rest
            = (line.content ++ ['\r']) ++ '\n' :: write ended rest := by simp [LineEnd.text]
        rw [hsplit, Text.physicalLines_append_cons _ _ hbody]
        exact .cons hline ih

/-- Reading undoes writing, whatever marks and line ends are chosen. -/
theorem parse_write (ended : Bool) (lines : List WrittenLine) :
    parse (String.ofList (write ended lines)) = .ok (lines.map (·.word)) := by
  have hlines := forall₂_physicalLines_write ended lines
  rw [parse_eq_ok_iff, String.toList_ofList]
  refine ⟨by simpa using hlines.length_eq, fun i hi hi' => ?_⟩
  have hwritten : i < lines.length := by simpa using hi'
  have hline : stripMark (Text.trim (Text.physicalLines (write ended lines))[i])
      = lines[i].word.toHex.toList := hlines.get hi hwritten
  obtain ⟨hne, hread⟩ := (Word.ofHex_eq_ok_iff _ _).mp (Word.ofHex_toHex lines[i].word)
  rw [lineValue?, hline, List.getElem_map]
  exact (if_neg hne).trans hread

end ObjectText

namespace Listing

/-! ## Programs and their texts -/

/-- **The ways in agree.**  Binary texts of words have the listing of the words, or are refused as
they are.  An object text of words is read as the words, with any mark in front of each, with
either line end behind each, and with or without the last line end.  Of texts that are not all
binary texts of words the first that is none is reported as malformed, with its position and as it
was given, whatever the words before it would be decoded to. -/
theorem entrances_agree :
    (∀ program : List Word, ofBinary (program.map Word.toBinary) = ofProgram program) ∧
    (∀ (ended : Bool) (lines : List ObjectText.WrittenLine),
      ObjectText.parse (String.ofList (ObjectText.write ended lines))
        = .ok (lines.map (·.word))) ∧
    ∀ texts : List String, (∃ text ∈ texts, ¬ Word.IsBinary text) →
      ∃ (i : ℕ) (hi : i < texts.length) (reason : Malformation),
        ¬ Word.IsBinary texts[i] ∧
        (∀ (j : ℕ) (hj : j < texts.length), j < i → Word.IsBinary texts[j]) ∧
        ofBinary texts = .error (.atLine
          { line := i + 1, word := texts[i], cause := .malformed texts[i] reason }) := by
  refine ⟨fun program => ?_, ObjectText.parse_write, fun texts hstray => ?_⟩
  · rw [ofBinary, Word.listOfBinary_toBinary]
    rfl
  · rcases forall_or_exists_first (fun _ text => Word.IsBinary text) texts
      with hall | ⟨i, hi, hnot, hbefore⟩
    · obtain ⟨text, hmem, hnot⟩ := hstray
      obtain ⟨i, hi, rfl⟩ := List.mem_iff_getElem.mp hmem
      exact absurd (hall i hi) hnot
    · obtain ⟨reason, hreason⟩ := Word.listOfBinary_of_not_isBinary texts i hi hnot hbefore
      refine ⟨i, hi, reason, hnot, hbefore, ?_⟩
      rw [ofBinary, hreason]
      rfl

/-- A word that cannot be decoded, alone and in front of a text that is too short. -/
theorem entrances_agree_of_late_malformed :
    let stray : String := Word.toBinary 0x3F
    let texts : List String := [stray, "1"]
    ofBinary [stray] = .error (.atLine (refusalAt 0x3F 0 (.unknownCode .register 0x3F))) ∧
    (∃ text ∈ texts, ¬ Word.IsBinary text) ∧
    ∃ reason, ofBinary texts =
      .error (.atLine { line := 2, word := "1", cause := .malformed "1" reason }) := by
  intro stray texts
  have hshort : ∃ text ∈ texts, ¬ Word.IsBinary text := ⟨"1", by simp [texts], by decide⟩
  refine ⟨by decide +kernel, hshort, ?_⟩
  obtain ⟨i, hi, reason, hnot, -, herror⟩ := entrances_agree.2.2 texts hshort
  obtain rfl : i = 1 := by
    have hi : i < 2 := hi
    have hne : i ≠ 0 := by
      rintro rfl
      exact hnot (Word.isBinary_toBinary 0x3F)
    omega
  exact ⟨reason, herror⟩

/-- **A refusal points at its line.**  An object text that can be read has one word on each of its
lines, of which there is one for each line feed and one for what stands behind the last.  If its
program has no listing, a line is reported: it is the first line whose word cannot be decoded at
its position in a program of as many words as there are lines.  It is counted from one, and
reported with the eight uppercase hexadecimal digits of its number, however that was written. -/
theorem refusal_at_physical_line (text : String) (program : List Word)
    (h : ObjectText.parse text = .ok program) :
    let lines := Text.physicalLines text.toList
    program.length = lines.length ∧
    (lines.length = text.toList.count '\n' +
      if text.toList.getLast? = none ∨ text.toList.getLast? = some '\n' then 0 else 1) ∧
    (∀ (i : ℕ) (hi : i < lines.length) (hi' : i < program.length),
      ObjectText.lineValue? lines[i] = some program[i].toNat) ∧
    ∀ failure, ofProgram program = .error failure →
      ∃ (i : ℕ) (hi : i < lines.length) (hi' : i < program.length) (word : String)
        (cause : Refusal),
        failure = .atLine { line := i + 1, word, cause } ∧
        Instruction.ofWord program[i] i lines.length = .error cause ∧
        (∀ (j : ℕ) (hj : j < program.length), j < i →
          ∃ instruction, Instruction.ofWord program[j] j lines.length = .ok instruction) ∧
        word.length = 8 ∧ (∀ c ∈ word.toList, c ∈ Word.hexDigits) ∧
        Radix.hexadecimal.read? word.toList = ObjectText.lineValue? lines[i] := by
  intro lines
  obtain ⟨hlength, hlines⟩ := (ObjectText.parse_eq_ok_iff text program).mp h
  have hsize : lines.length = program.length := hlength
  refine ⟨hsize.symm, Text.length_physicalLines _, hlines, ?_⟩
  intro failure hfailure
  rcases ofProgram_cases program
    with ⟨instructions, hdecodes⟩ | ⟨i, hi, cause, hword, hbefore, herror⟩
  · rw [ofProgram_of_decodes program instructions hdecodes] at hfailure
    simp at hfailure
  · have hi' : i < lines.length := hsize ▸ hi
    rw [herror] at hfailure
    refine ⟨i, hi', hi, program[i].toHex, cause, (Except.error.inj hfailure).symm, ?_, ?_,
      Word.length_toHex _, Word.mem_toHex _, ?_⟩
    · rwa [hsize]
    · rwa [hsize]
    · rw [Word.read?_toHex]
      exact (hlines i hi' hi).symm

/-- The word on the second line has no instruction.  The line has lowercase digits, fewer than
eight, behind a mark and between blanks of several kinds. -/
theorem refusal_at_physical_line_of_blanks :
    let text := "\t0x20\r\n\u00a00X3f \u3000\n20"
    let refusal : LineRefusal :=
      { line := 2, word := "0000003F", cause := .unknownCode .register 0x3F }
    ObjectText.parse text = .ok [0x20, 0x3F, 0x20] ∧
      ofProgram [0x20, 0x3F, 0x20] = .error (.atLine refusal) ∧
      Radix.hexadecimal.read? refusal.word.toList
        = ObjectText.lineValue? "\u00a00X3f \u3000".toList := by
  intro text refusal
  have hparse : ObjectText.parse text = .ok [0x20, 0x3F, 0x20] := by decide +kernel
  have herror : ofProgram [0x20, 0x3F, 0x20] = .error (.atLine refusal) := by decide +kernel
  refine ⟨hparse, herror, ?_⟩
  obtain ⟨-, -, -, hrefused⟩ := refusal_at_physical_line text _ hparse
  obtain ⟨i, hi, -, word, cause, hsame, -, -, -, -, hvalue⟩ := hrefused _ herror
  obtain ⟨hline, rfl, -⟩ : 2 = i + 1 ∧ "0000003F" = word ∧
      Refusal.unknownCode .register 0x3F = cause := by simpa [refusal] using hsame
  obtain rfl : i = 1 := by omega
  have hsecond : (Text.physicalLines text.toList)[1]? = some "\u00a00X3f \u3000".toList := by
    decide +kernel
  obtain ⟨hi, hsecond⟩ := List.getElem?_eq_some_iff.mp hsecond
  rw [← hsecond]
  exact hvalue

end Listing

end MipsListing
