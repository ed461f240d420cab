/-
# Pieces, lines and blanks of texts

Cutting a text at a separator is what the library calls splitting a list, so it is undone by
joining the pieces with the separator.  Added here are the facts on cutting that come up for paths
and for lines: no piece has the separator, what is added behind a text without a separator belongs
to the last piece, and the pieces of the beginning of a text are beginnings of its pieces.  Trimming
takes away the blanks at both ends and nothing else: what is left stands between blanks, neither
begins nor ends with one, and is the only part of the text of which this can be said.

* `Text.pieces_eq_splitOn` : cutting is splitting;
* `Text.forall₂_prefix_pieces` : the pieces of the beginning of a text;
* `Text.physicalLines_append_cons` : a line with its line feed, in front of others;
* `Text.Lines`, `Text.physicalLines_eq_iff` : the lines of a text, and that it is cut into them;
* `Text.length_physicalLines` : how many lines a text has;
* `Text.Trimmed`, `Text.trim_eq_iff` : a content between blanks, and that trimming finds it.
-/
import Mathlib
import MipsListing.Text

namespace MipsListing.Text

variable {sep : Char}

/-! ## Pieces -/

/-- Cutting a text is splitting a list of characters. -/
theorem pieces_eq_splitOn (sep : Char) (text : List Char) :
    pieces sep text = text.splitOn sep := by
  induction text with
  | nil => rw [pieces_nil, List.splitOn_nil]
  | cons c text ih => simp only [pieces_cons, addChar, ih, List.splitOn_cons_eq_if_modifyHead,
      beq_iff_eq]

/-- The pieces with the separator between them are the text. -/
theorem intercalate_pieces (sep : Char) (text : List Char) :
    [sep].intercalate (pieces sep text) = text := by
  rw [pieces_eq_splitOn, List.intercalate_splitOn]

/-- Texts without the separator are the pieces of what they are joined to. -/
theorem pieces_intercalate (sep : Char) (texts : List (List Char)) (hne : texts ≠ [])
    (h : ∀ text ∈ texts, sep ∉ text) : pieces sep ([sep].intercalate texts) = texts := by
  rw [pieces_eq_splitOn, List.splitOn_intercalate sep h hne]

/-- No piece has the separator. -/
theorem not_mem_of_mem_pieces (text piece : List Char) (h : piece ∈ pieces sep text) :
    sep ∉ piece := by
  induction text generalizing piece with
  | nil => simp_all
  | cons c text ih =>
    rw [pieces_cons, addChar] at h
    split at h
    · rcases List.mem_cons.mp h with rfl | h
      · simp
      · exact ih piece h
    · rename_i hc
      cases hpieces : pieces sep text with
      | nil => exact absurd hpieces (pieces_ne_nil sep text)
      | cons first rest =>
        rw [hpieces, List.modifyHead_cons] at h
        rcases List.mem_cons.mp h with rfl | h
        · have := ih first (by simp [hpieces])
          simp [this, Ne.symm hc]
        · exact ih piece (by simp [hpieces, h])

/-- The pieces of the beginning of a text are beginnings of its pieces. -/
theorem forall₂_prefix_pieces (sep : Char) (front back : List Char) :
    ∃ more rest, pieces sep (front ++ back) = more ++ rest ∧
      List.Forall₂ (· <+: ·) (pieces sep front) more := by
  induction front with
  | nil =>
    cases hpieces : pieces sep back with
    | nil => exact absurd hpieces (pieces_ne_nil sep back)
    | cons first rest => exact ⟨[first], rest, by simpa using hpieces, by simp⟩
  | cons c front ih =>
    obtain ⟨more, rest, hmore, hforall⟩ := ih
    rw [List.cons_append, pieces_cons, pieces_cons, hmore, addChar, addChar]
    split
    · exact ⟨[] :: more, rest, rfl, .cons (List.prefix_refl []) hforall⟩
    · cases hfront : pieces sep front with
      | nil => exact absurd hfront (pieces_ne_nil sep front)
      | cons first firsts =>
        rw [hfront] at hforall
        obtain ⟨long, longs, hfirst, hfirsts, rfl⟩ := List.forall₂_cons_left_iff.mp hforall
        refine ⟨(c :: long) :: longs, rest, by simp, ?_⟩
        exact .cons ((List.cons_prefix_cons).mpr ⟨rfl, hfirst⟩) hfirsts

/-! ## Physical lines -/

/-- A text without the separator and the separator behind it are one more piece in front. -/
theorem pieces_append_cons (sep : Char) (front back : List Char) (h : sep ∉ front) :
    pieces sep (front ++ sep :: back) = front :: pieces sep back := by
  induction front with
  | nil => simp [addChar]
  | cons c front ih =>
    obtain ⟨hc, hfront⟩ := not_or.mp (fun hor => h (List.mem_cons.mpr hor))
    rw [List.cons_append, pieces_cons, ih hfront, addChar, if_neg (Ne.symm hc),
      List.modifyHead_cons]

/-- A line with its line feed is one more line in front. -/
theorem physicalLines_append_cons (line rest : List Char) (h : '\n' ∉ line) :
    physicalLines (line ++ '\n' :: rest) = line :: physicalLines rest := by
  have hrest := pieces_ne_nil '\n' rest
  simp only [physicalLines, pieces_append_cons '\n' line rest h,
    List.getLast?_cons_of_ne_nil hrest, List.dropLast_cons_of_ne_nil hrest]
  split_ifs <;> rfl

/-- A text without line feeds is one line, unless it is empty. -/
theorem physicalLines_of_not_mem (line : List Char) (h : '\n' ∉ line) (hne : line ≠ []) :
    physicalLines line = [line] := by
  have hpieces : pieces '\n' line = [line] := by
    simpa using pieces_intercalate '\n' [line] (by simp) (by simpa using h)
  rw [physicalLines, hpieces, if_neg (by simpa using hne)]

/-- A text and its lines.  Each line ends with a line feed, which may be left out behind the last
line unless nothing stands on it. -/
inductive Lines : List Char → List (List Char) → Prop where
  | none : Lines [] []
  | unended (line : List Char) (h : '\n' ∉ line) (hne : line ≠ []) : Lines line [line]
  | ended (line rest : List Char) (lines : List (List Char)) (h : '\n' ∉ line)
    (hrest : Lines rest lines) : Lines (line ++ '\n' :: rest) (line :: lines)

/-- A text has lines. -/
theorem lines_physicalLines (text : List Char) : Lines text (physicalLines text) := by
  -- the induction is on the number of characters behind the first line feed
  induction hlength : text.length using Nat.strong_induction_on generalizing text with
  | _ n ih =>
    by_cases hfeed : '\n' ∈ text
    · obtain ⟨line, rest, rfl, hline⟩ := List.eq_append_cons_of_mem hfeed
      rw [physicalLines_append_cons line rest hline]
      exact .ended line rest _ hline (ih rest.length (by simp at hlength; omega) rest rfl)
    · by_cases hne : text = []
      · rw [hne]
        exact .none
      · rw [physicalLines_of_not_mem text hfeed hne]
        exact .unended text hfeed hne

/-- **The lines of a text** are those into which it is cut. -/
theorem physicalLines_eq_iff (text : List Char) (lines : List (List Char)) :
    physicalLines text = lines ↔ Lines text lines := by
  constructor
  · rintro rfl
    exact lines_physicalLines text
  · intro h
    induction h with
    | none => rfl
    | unended line h hne => exact physicalLines_of_not_mem line h hne
    | ended line rest lines h _ ih => rw [physicalLines_append_cons line rest h, ih]

/-- There is a line for each line feed, and one for what stands behind the last. -/
theorem length_physicalLines (text : List Char) :
    (physicalLines text).length = text.count '\n' +
      if text.getLast? = none ∨ text.getLast? = some '\n' then 0 else 1 := by
  have hlines := lines_physicalLines text
  generalize physicalLines text = lines at hlines
  induction hlines with
  | none => rfl
  | unended line h hne =>
    have hlast : ¬ (line.getLast? = none ∨ line.getLast? = some '\n') := by
      rintro (hnone | hsome)
      · exact hne (List.getLast?_eq_none_iff.mp hnone)
      · exact h (List.mem_of_getLast? hsome)
    rw [List.count_eq_zero_of_not_mem h, if_neg hlast]
    rfl
  | ended line rest lines h hrest ih =>
    have hlast : ((line ++ '\n' :: rest).getLast? = none ∨
        (line ++ '\n' :: rest).getLast? = some '\n') ↔
        (rest.getLast? = none ∨ rest.getLast? = some '\n') := by
      cases rest with
      | nil => simp
      | cons c rest => simp
    rw [List.length_cons, ih, List.count_append, List.count_cons_self,
      List.count_eq_zero_of_not_mem h]
    simp only [hlast]
    omega

/-! ## Trimming -/

/-- What stands between the blanks at both ends of a line, which neither begins nor ends with a
blank itself. -/
structure Trimmed (line content : List Char) : Prop where
  between : ∃ front back, line = front ++ content ++ back ∧
    (∀ c ∈ front, isBlank c = true) ∧ ∀ c ∈ back, isBlank c = true
  head : ∀ c ∈ content.head?, isBlank c = false
  last : ∀ c ∈ content.getLast?, isBlank c = false

/-- The first character behind the blanks in front is none. -/
theorem isBlank_of_mem_head?_dropWhile (text : List Char) (c : Char)
    (h : c ∈ (text.dropWhile isBlank).head?) : isBlank c = false := by
  have := List.head?_dropWhile_not isBlank text
  rw [Option.mem_def.mp h] at this
  simpa using this

/-- The blanks at the end of a line behind what trimming leaves of it. -/
theorem trim_append_takeWhile (line : List Char) :
    trim line ++ ((trimStart line).reverse.takeWhile isBlank).reverse = trimStart line := by
  rw [trim, trimEnd, ← List.reverse_append, List.takeWhile_append_dropWhile, List.reverse_reverse]

/-- What trimming leaves of a line stands between blanks. -/
theorem trimmed_trim (line : List Char) : Trimmed line (trim line) where
  between := by
    refine ⟨line.takeWhile isBlank,
      ((trimStart line).reverse.takeWhile isBlank).reverse, ?_, ?_, ?_⟩
    · rw [List.append_assoc, trim_append_takeWhile, trimStart, List.takeWhile_append_dropWhile]
    · exact fun c hc => List.mem_takeWhile_imp hc
    · exact fun c hc => List.mem_takeWhile_imp (List.mem_reverse.mp hc)
  head := by
    intro c hc
    apply isBlank_of_mem_head?_dropWhile line c
    rw [← trimStart, ← trim_append_takeWhile line]
    exact List.mem_head?_append_of_mem_head? hc
  last := by
    intro c hc
    rw [trim, trimEnd, List.getLast?_reverse] at hc
    exact isBlank_of_mem_head?_dropWhile _ c hc

/-- **Trimming** leaves what stands between the blanks at both ends. -/
theorem trim_eq_iff (line content : List Char) : trim line = content ↔ Trimmed line content := by
  constructor
  · rintro rfl
    exact trimmed_trim line
  · rintro ⟨⟨front, back, rfl, hfront, hback⟩, hhead, hlast⟩
    have hstart : trimStart (front ++ content ++ back) = (content ++ back).dropWhile isBlank := by
      rw [trimStart, List.append_assoc, List.dropWhile_append_of_pos hfront]
    cases content with
    | nil =>
      rw [trim, hstart, List.nil_append, List.dropWhile_eq_nil_iff.mpr hback]
      rfl
    | cons c content =>
      have hhead : isBlank c = false := hhead c rfl
      have hend : (c :: content).reverse.dropWhile isBlank = (c :: content).reverse := by
        rw [List.dropWhile_eq_self_iff]
        intro hlength
        have hlast := hlast ((c :: content).getLast (by simp))
          (by simp [List.getLast?_eq_some_getLast])
        rw [List.getElem_zero, List.head_reverse, hlast]
        exact Bool.false_ne_true
      rw [trim, hstart, List.cons_append, List.dropWhile_cons_of_neg (by simp [hhead]),
        ← List.cons_append, trimEnd, List.reverse_append,
        List.dropWhile_append_of_pos (by simpa using hback), hend, List.reverse_reverse]

end MipsListing.Text
