/-
# References to labels

A branch ends with the name of the place to which it leads.  In the listing that name stands on
one line only, and below that line is the instruction at the place.  No label is there without a
branch that names it.

* `Listing.Marks` : a name that stands on one line, at its place;
* `Listing.marks_of_target` : the target of a branch is marked;
* `Listing.references_resolved` : references and labels belong together.
-/
import MipsListing.Proofs.AssemblyText

namespace MipsListing

/-! ## The last operand -/

/-- An instruction text ends with its last operand. -/
theorem instructionText_concat (mnemonic : String) (operands : List String) (last : String)
    (h : operands ≠ []) :
    instructionText mnemonic (operands ++ [last])
      = instructionText mnemonic operands ++ ", " ++ last := by
  have hjoin : ", ".intercalate (operands ++ [last])
      = ", ".intercalate operands ++ ", " ++ last := by
    rw [String.intercalate_append_of_ne_nil h (by simp), String.intercalate_singleton]
  unfold instructionText
  rw [hjoin]
  simp only [String.append_assoc]

/-- The last of the operands of a branch is the name of its target. -/
theorem Instruction.DecodedFrom.text_of_target {word : Word} {index size : ℕ}
    {instruction : Instruction} (h : DecodedFrom word index size instruction) (target : ℕ)
    (ht : instruction.target = some target) :
    ∃ operands, operands ≠ [] ∧
      instruction.text
        = instructionText instruction.operation.mnemonic (operands ++ [labelText target]) := by
  exact ⟨[(word.register .rs).name, (word.register .rt).name], by simp,
    h.text_eq_of_target target ht⟩

/-! ## Marked positions -/

/-- A name marks a position in a listing of a program of `size` words.  One line only has the name
and a colon for its text.  It is the label line of the position, and the line below it is the
instruction at the position, or it is the last line if the position is the end of the program. -/
def Listing.Marks (listing : Listing) (size : ℕ) (name : String) (position : ℕ) : Prop :=
  ∃ above below, listing.lines = above ++ .label position name :: below ∧
    (∀ line ∈ above ++ below, line.text ≠ name ++ ":") ∧
    ((position = size ∧ below = []) ∨
      (position < size ∧ ∃ instruction rest, below = .instruction position instruction :: rest))

/-- Only the label line of a position has the text of that label. -/
theorem position_of_text_eq (instructions : List Instruction)
    (hcolon : ∀ instruction ∈ instructions, ':' ∉ instruction.text.toList) (line : Line)
    (hline : line ∈ interleave (calledLabel? instructions) 0 instructions) (index : ℕ)
    (htext : line.text = labelText index ++ ":") : line = .label index (labelText index) := by
  cases line with
  | label other name =>
    obtain ⟨-, rfl⟩ := eq_labelText_of_label_mem instructions other name hline
    obtain rfl := labelText_injective ((String.append_left_inj ":").mp htext)
    rfl
  | instruction other content =>
    obtain ⟨k, -, hk⟩ := (instruction_mem_interleave_iff _ _ _ _ 0).mp hline
    have hnot := hcolon content (List.mem_of_getElem? hk)
    rw [show content.text = labelText index ++ ":" from htext] at hnot
    exact absurd (by simp) hnot

namespace Listing

/-- **A target is marked** in the interleaving of the instructions and their labels. -/
theorem marks_of_target (instructions : List Instruction)
    (hcolon : ∀ instruction ∈ instructions, ':' ∉ instruction.text.toList)
    (instruction : Instruction) (hmem : instruction ∈ instructions) (target : ℕ)
    (ht : instruction.target = some target) (hle : target ≤ instructions.length) :
    Marks { lines := interleave (calledLabel? instructions) 0 instructions } instructions.length
      (labelText target) target := by
  have hcalled : calledLabel? instructions target = some (labelText target) :=
    (calledLabel?_eq_some_iff _ _ _).mpr ⟨⟨instruction, hmem, ht⟩, rfl⟩
  obtain ⟨above, hsplit, habove⟩ := interleave_split (calledLabel? instructions) target 0
    instructions hle
  rw [Nat.zero_add] at hsplit habove
  obtain ⟨below, hlines, hother, hnext⟩ := interleave_of_labelled _ target _ hcalled
    (instructions.drop target)
  rw [hlines] at hsplit
  rw [ne_eq, List.drop_eq_nil_iff] at hnext
  have hplace : (target = instructions.length ∧ below = []) ∨ (target < instructions.length ∧
      ∃ next lines, below = .instruction target next :: lines) := by
    rcases hnext with ⟨hend, hbelow⟩ | ⟨hend, hbelow⟩
    · exact Or.inl ⟨by omega, hbelow⟩
    · exact Or.inr ⟨by omega, hbelow⟩
  refine ⟨above, below, hsplit, ?_, hplace⟩
  intro line hline htext
  -- another line with that text would be the same label, but its position is not the target
  have hall : line ∈ interleave (calledLabel? instructions) 0 instructions := by
    rw [hsplit]
    rcases List.mem_append.mp hline with hline | hline
    · exact List.mem_append_left _ hline
    · exact List.mem_append_right _ (List.mem_cons_of_mem _ hline)
  have hlabel := position_of_text_eq instructions hcolon line hall target htext
  rcases List.mem_append.mp hline with hline | hline
  · have := habove line hline
    rw [hlabel] at this
    exact absurd this (by simp [Line.position])
  · exact hother line hline hlabel

/-- The names of the labels of an interleaving are different. -/
theorem nodup_labels_interleave (instructions : List Instruction) :
    ((interleave (calledLabel? instructions) 0 instructions).filterMap Line.label?
      |>.map Prod.snd).Nodup := by
  have hname : ∀ label ∈ (interleave (calledLabel? instructions) 0 instructions).filterMap
      Line.label?, label.2 = labelText label.1 := by
    rintro ⟨index, name⟩ hmem
    have hline := (mem_filterMap_label?_iff _ index name).mp hmem
    exact (eq_labelText_of_label_mem instructions index name hline).2
  rw [List.Nodup, List.pairwise_map]
  refine (pairwise_labels_interleave (calledLabel? instructions) instructions 0).imp_of_mem ?_
  intro a b ha hb hlt heq
  rw [hname a ha, hname b hb] at heq
  exact hlt.ne (labelText_injective heq)

/-- **References are resolved.**  In the listing of a program every instruction with a target ends
with the name of the target, and the name marks the target.  Every label is the last operand of a
branch.  The names of the labels are different, and no two labels stand together. -/
theorem references_resolved (program : List Word) (listing : Listing)
    (h : ofProgram program = .ok listing) :
    (∀ index instruction target, .instruction index instruction ∈ listing.lines →
      instruction.target = some target →
      ∃ name front, labelName target = .ok name ∧ instruction.text = front ++ ", " ++ name ∧
        listing.Marks program.length name target) ∧
    (∀ index name, .label index name ∈ listing.lines →
      ∃ i instruction operands, .instruction i instruction ∈ listing.lines ∧
        instruction.operation.isBranch = true ∧ instruction.target = some index ∧
        instruction.text
          = instructionText instruction.operation.mnemonic (operands ++ [name])) ∧
    (listing.labels.map Prod.snd).Nodup ∧
    listing.lines.IsChain (fun a b => a.isLabel → ¬ b.isLabel) := by
  obtain ⟨instructions, hdecodes, hlines⟩ := exists_decodes_of_ofProgram program listing h
  have hcolon : ∀ instruction ∈ instructions, ':' ∉ instruction.text.toList :=
    fun instruction hmem => (hdecodes.text_of_mem instruction hmem).2
  refine ⟨?_, ?_, ?_, ?_⟩
  · intro index instruction target hline ht
    rw [hlines] at hline
    obtain ⟨k, -, hget⟩ := (instruction_mem_interleave_iff _ _ _ _ 0).mp hline
    obtain ⟨hk, rfl⟩ := List.getElem?_eq_some_iff.mp hget
    have hword := hdecodes.decodedFrom k (by rwa [← hdecodes.length_eq]) hk
    obtain ⟨operands, hne, htext⟩ := hword.text_of_target target ht
    have hle : target ≤ instructions.length := by
      rw [hdecodes.length_eq]
      exact hword.target_le target ht
    have hmarks := marks_of_target instructions hcolon _ (List.getElem_mem hk) target ht hle
    refine ⟨labelText target, instructionText instructions[k].operation.mnemonic operands,
      labelName_of_le target (hword.target_eq_some target ht).2.1, ?_, ?_⟩
    · rw [htext, instructionText_concat _ _ _ hne]
    · unfold Marks
      rw [hlines, ← hdecodes.length_eq]
      exact hmarks
  · intro index name hline
    rw [hlines] at hline
    obtain ⟨⟨instruction, hmem, ht⟩, rfl⟩ := eq_labelText_of_label_mem instructions index name hline
    obtain ⟨k, hk, rfl⟩ := List.getElem_of_mem hmem
    have hword := hdecodes.decodedFrom k (by rwa [← hdecodes.length_eq]) hk
    obtain ⟨operands, -, htext⟩ := hword.text_of_target index ht
    refine ⟨k, instructions[k], operands, ?_, (hword.target_eq_some index ht).1, ht, htext⟩
    rw [hlines, instruction_mem_interleave_iff]
    exact ⟨k, (Nat.zero_add k).symm, List.getElem?_eq_getElem hk⟩
  · unfold labels
    rw [hlines]
    exact nodup_labels_interleave instructions
  · rw [hlines]
    exact isChain_interleave _ instructions 0

/-- Two branches to the end of a program, one to its first word, and one from the
last word to the word above it. -/
theorem references_resolved_of_branches :
    let program : List Word := [0x10000003, 0x1000FFFE, 0x10000001, 0x1400FFFE]
    let listing : Listing := { lines :=
      [.label 0 "Addr_0000",
       .instruction 0 ⟨.beq, .immediate, "beq $zero, $zero, Addr_0010", some 4⟩,
       .instruction 1 ⟨.beq, .immediate, "beq $zero, $zero, Addr_0000", some 0⟩,
       .label 2 "Addr_0008",
       .instruction 2 ⟨.beq, .immediate, "beq $zero, $zero, Addr_0010", some 4⟩,
       .instruction 3 ⟨.bne, .immediate, "bne $zero, $zero, Addr_0008", some 2⟩,
       .label 4 "Addr_0010"] }
    ofProgram program = .ok listing ∧
      listing.Marks program.length "Addr_0010" 4 := by
  intro program listing
  have hlisting : ofProgram program = .ok listing := by decide
  refine ⟨hlisting, ?_⟩
  obtain ⟨name, front, hname, -, hmarks⟩ := (references_resolved program listing hlisting).1 0 _ 4
    (List.mem_cons_of_mem _ List.mem_cons_self) rfl
  rw [labelName_of_le 4 (by decide)] at hname
  obtain rfl := Except.ok.inj hname
  exact hmarks

end Listing

end MipsListing
