/-
# Placing the labels

Inserting the labels of an ordered map from the highest position down gives the lines that one
pass from top to bottom writes.  While labels are inserted, the lines above the next place are
still instructions only, so that the place keeps the number of its position.  A whole program is
therefore the interleaving of its instructions with the labels that they call for.

* `foldrM_insertLabel` : the loop of insertions;
* `Listing.ofProgramBy_of_decodes` : the two phases together;
* `Listing.ofProgramBy_eq_interleave` : the listing of a program under any decoder.
-/
import MipsListing.Proofs.Decoding
import MipsListing.Proofs.Instruction
import MipsListing.Proofs.Interleaving

namespace MipsListing

/-! ## The loop of insertions -/

/-- Entries list the labels of positions, by rising positions. -/
structure Lists (entries : List (ℕ × String)) (f : ℕ → Option String) : Prop where
  sorted : entries.Pairwise (fun a b => a.1 < b.1)
  mem_iff : ∀ index name, (index, name) ∈ entries ↔ f index = some name

namespace Lists

variable {entries : List (ℕ × String)} {f : ℕ → Option String}

/-- No entries list no labels. -/
theorem eq_none (h : Lists [] f) (i : ℕ) : f i = none := by
  by_contra hne
  obtain ⟨name, hname⟩ := Option.ne_none_iff_exists'.mp hne
  exact absurd ((h.mem_iff i name).mpr hname) (by simp)

/-- Without the label of the first entry, nothing is labelled up to its position. -/
theorem eq_none_of_le {index : ℕ} {name : String} (h : Lists ((index, name) :: entries) f)
    (i : ℕ) (hi : i ≤ index) : Function.update f index none i = none := by
  by_cases heq : i = index
  · rw [heq, Function.update_self]
  · rw [Function.update_of_ne heq]
    by_contra hne
    obtain ⟨other, hother⟩ := Option.ne_none_iff_exists'.mp hne
    rcases List.mem_cons.mp ((h.mem_iff i other).mpr hother) with hfirst | hmem
    · exact heq (congrArg Prod.fst hfirst)
    · have : index < i := (List.pairwise_cons.mp h.sorted).1 _ hmem
      omega

/-- The entries behind the first one list the labels without that of the first. -/
theorem tail {index : ℕ} {name : String} (h : Lists ((index, name) :: entries) f) :
    Lists entries (Function.update f index none) := by
  obtain ⟨hhead, htail⟩ := List.pairwise_cons.mp h.sorted
  refine ⟨htail, fun i other => ?_⟩
  by_cases hi : i = index
  · subst hi
    rw [Function.update_self]
    constructor
    · intro hmem
      exact absurd (hhead _ hmem) (lt_irrefl _)
    · intro hnone
      exact absurd hnone (by simp)
  · rw [Function.update_of_ne hi, ← h.mem_iff i other, List.mem_cons]
    constructor
    · exact Or.inr
    · rintro (heq | hmem)
      · exact absurd (congrArg Prod.fst heq) hi
      · exact hmem

/-- Adding the label of the first entry again. -/
theorem update_head {index : ℕ} {name : String} (h : Lists ((index, name) :: entries) f) :
    Function.update (Function.update f index none) index (some name) = f := by
  rw [Function.update_idem, ← (h.mem_iff index name).mp List.mem_cons_self,
    Function.update_eq_self]

end Lists

/-- **Inserting from the highest label down** gives the interleaving. -/
theorem foldrM_insertLabel (instructions : List Instruction) (entries : List (ℕ × String)) :
    ∀ f : ℕ → Option String, Lists entries f →
      (∀ entry ∈ entries, entry.1 ≤ instructions.length) →
      entries.foldrM insertLabel (instructionLines instructions)
        = .ok (interleave f 0 instructions) := by
  induction entries with
  | nil =>
    intro f hlists _
    rw [List.foldrM_nil, interleave_of_unlabelled f hlists.eq_none]
    rfl
  | cons entry entries ih =>
    intro f hlists hle
    obtain ⟨index, name⟩ := entry
    -- what the labels were before the lowest of them is inserted
    let g := Function.update f index none
    -- all labels placed so far are lower down, so line `index` is still that of the position
    have hindex : index ≤ instructions.length := hle _ List.mem_cons_self
    have hroom : ¬ (interleave g 0 instructions).length < index := by
      have := length_le_length_interleave g instructions 0
      omega
    have hinsert := insertIdx_interleave name index g 0 instructions hindex
      (fun i _ hi => hlists.eq_none_of_le i (by omega))
    rw [Nat.zero_add, hlists.update_head] at hinsert
    rw [List.foldrM_cons, ih g hlists.tail (fun e he => hle e (List.mem_cons_of_mem _ he))]
    show insertLabel (index, name) (interleave g 0 instructions) = _
    unfold insertLabel
    rw [if_neg hroom, hinsert]

/-- The labels of a map are listed by rising positions. -/
theorem LabelMap.pairwise_toList (labels : LabelMap) :
    labels.toList.Pairwise (fun a b => a.1 < b.1) :=
  Std.TreeMap.ordered_keys_toList.imp fun h => Nat.compare_eq_lt.mp h

/-- A map of labels that the loop has kept lists the labels that the instructions call for. -/
theorem Decoding.Holds.lists {decoding : Decoding} {instructions : List Instruction}
    (h : decoding.Holds instructions) :
    Lists decoding.labels.toList (calledLabel? instructions) where
  sorted := decoding.labels.pairwise_toList
  mem_iff := by
    intro index name
    rw [Std.TreeMap.mem_toList_iff_getElem?_eq_some, h.labels_eq]

/-- The positions in a map of labels are those to which the instructions branch. -/
theorem Decoding.Holds.exists_target {decoding : Decoding} {instructions : List Instruction}
    (h : decoding.Holds instructions) (entry : ℕ × String) (hmem : entry ∈ decoding.labels.toList) :
    ∃ instruction ∈ instructions, instruction.target = some entry.1 :=
  ((calledLabel?_eq_some_iff _ _ _).mp ((h.lists.mem_iff entry.1 entry.2).mp hmem)).1

/-- Placing the labels that the instructions call for, if none lies behind the end. -/
theorem LabelMap.placeIn_eq_interleave (decoding : Decoding) (instructions : List Instruction)
    (hholds : decoding.Holds instructions)
    (hend : ∀ instruction ∈ instructions, ∀ target,
      instruction.target = some target → target ≤ instructions.length) :
    decoding.labels.placeIn (instructionLines instructions)
      = .ok (interleave (calledLabel? instructions) 0 instructions) := by
  refine foldrM_insertLabel instructions _ _ hholds.lists ?_
  intro entry hmem
  obtain ⟨instruction, hinstruction, htarget⟩ := hholds.exists_target entry hmem
  exact hend instruction hinstruction entry.1 htarget

/-! ## Whole programs -/

/-- The labels of an interleaving with the labels that its instructions call for. -/
theorem eq_labelText_of_label_mem (instructions : List Instruction) (index : ℕ) (name : String)
    (h : .label index name ∈ interleave (calledLabel? instructions) 0 instructions) :
    (∃ instruction ∈ instructions, instruction.target = some index) ∧ name = labelText index :=
  (calledLabel?_eq_some_iff _ _ _).mp (eq_some_of_label_mem_interleave _ _ _ _ 0 h)

/-- A decoded instruction branches to places with names only. -/
theorem Instruction.nameable_of_ofWord (word : Word) (index size : ℕ) (instruction : Instruction)
    (h : ofWord word index size = .ok instruction) : instruction.Nameable := fun target ht =>
  ((decodedFrom_of_ofWord _ _ _ _ h).target_eq_some target ht).2.1

namespace Decodes

variable {program : List Word} {instructions : List Instruction}

/-- The instructions of a program are what its words say. -/
theorem decodedFrom (h : Decodes Instruction.ofWord program instructions) (i : ℕ)
    (hi : i < program.length) (hi' : i < instructions.length) :
    Instruction.DecodedFrom program[i] i program.length instructions[i] :=
  Instruction.decodedFrom_of_ofWord _ _ _ _ (h.decoded i hi hi')

/-- The targets of the instructions of a program lie in the program. -/
theorem target_le (h : Decodes Instruction.ofWord program instructions) :
    ∀ instruction ∈ instructions, ∀ target,
      instruction.target = some target → target ≤ program.length := by
  intro instruction hmem target ht
  obtain ⟨i, hi, rfl⟩ := List.getElem_of_mem hmem
  exact (h.decodedFrom i (by rwa [← h.length_eq]) hi).target_le target ht

end Decodes

namespace Listing

/-- What is left to do for a program whose words are decoded: to place the labels that the loop
has kept. -/
theorem exists_placeIn_of_decodes (decoder : Decoder) (program : List Word)
    (instructions : List Instruction) (hdecodes : Decodes decoder program instructions) :
    ∃ decoding, Decoding.ofProgram decoder program = .ok decoding ∧
      decoding.Holds instructions ∧
      ofProgramBy decoder program
        = (decoding.labels.placeIn (instructionLines instructions)).map Listing.mk := by
  -- the run of the loop has instructions of its own, but a program is decoded in one way only
  obtain ⟨decoding, others, hrun, hholds, hothers⟩ :=
    Decoding.ofProgram_of_accepts decoder program hdecodes.accepts
  obtain rfl := hothers.unique hdecodes
  refine ⟨decoding, hrun, hholds, ?_⟩
  unfold ofProgramBy
  rw [hrun]
  show (do let lines ← decoding.labels.placeIn (instructionLines decoding.instructions.toList)
           return ({ lines } : Listing)) = _
  rw [hholds.instructions_eq]
  cases decoding.labels.placeIn (instructionLines others) with
  | error failure => rfl
  | ok lines => rfl

/-- The listing of a program whose words are decoded, if no target lies behind its end. -/
theorem ofProgramBy_of_decodes (decoder : Decoder) (program : List Word)
    (instructions : List Instruction) (hdecodes : Decodes decoder program instructions)
    (hend : ∀ instruction ∈ instructions, ∀ target,
      instruction.target = some target → target ≤ program.length) :
    ofProgramBy decoder program
      = .ok { lines := interleave (calledLabel? instructions) 0 instructions } := by
  obtain ⟨decoding, -, hholds, hrun⟩ :=
    exists_placeIn_of_decodes decoder program instructions hdecodes
  rw [hrun, LabelMap.placeIn_eq_interleave decoding instructions hholds
    (by rwa [hdecodes.length_eq])]
  rfl

/-- The first refused word of a program is reported. -/
theorem ofProgramBy_of_refused (decoder : Decoder) (program : List Word) (i : ℕ)
    (hi : i < program.length) (cause : Refusal)
    (hrefuses : decoder.Refuses program.length program[i] i cause)
    (hbefore : ∀ (j : ℕ) (hj : j < program.length), j < i →
      decoder.Accepts program.length program[j] j) :
    ofProgramBy decoder program = .error (.atLine (refusalAt program[i] i cause)) := by
  rw [ofProgramBy, Decoding.ofProgram_of_refused decoder program i hi cause hrefuses hbefore]
  rfl

/-- A program that has a listing is decoded word by word. -/
theorem exists_decodes_of_ok (decoder : Decoder) (program : List Word) (listing : Listing)
    (h : ofProgramBy decoder program = .ok listing) :
    ∃ instructions, Decodes decoder program instructions := by
  rcases Decoding.decodes_or_refuses decoder program
    with hdecodes | ⟨i, hi, cause, hrefuses, hbefore⟩
  · exact hdecodes
  · rw [ofProgramBy_of_refused decoder program i hi cause hrefuses hbefore] at h
    simp at h

/-- The listing of a program whose words are decoded. -/
theorem ofProgram_of_decodes (program : List Word) (instructions : List Instruction)
    (hdecodes : Decodes Instruction.ofWord program instructions) :
    ofProgram program = .ok { lines := interleave (calledLabel? instructions) 0 instructions } :=
  ofProgramBy_of_decodes _ program instructions hdecodes hdecodes.target_le

/-- A program that has a listing, with its instructions. -/
theorem exists_decodes_of_ofProgram (program : List Word) (listing : Listing)
    (h : ofProgram program = .ok listing) :
    ∃ instructions, Decodes Instruction.ofWord program instructions ∧
      listing.lines = interleave (calledLabel? instructions) 0 instructions := by
  obtain ⟨instructions, hdecodes⟩ := exists_decodes_of_ok Instruction.ofWord program listing h
  rw [ofProgram_of_decodes program instructions hdecodes] at h
  exact ⟨instructions, hdecodes, by rw [← Except.ok.inj h]⟩

/-- **Two phases, one pass.**  Let a decoder decode every word of a program, with no target behind
the end of the program or without a name.  Then there is a listing, and it is what one pass from
top to bottom writes: at every position the label of the position if some instruction branches
there, and the instruction behind it. -/
theorem ofProgramBy_eq_interleave (decoder : Decoder) (program : List Word)
    (instructions : List Instruction) (hlength : instructions.length = program.length)
    (hdecode : ∀ (i : ℕ) (hi : i < program.length) (hi' : i < instructions.length),
      decoder program[i] i program.length = .ok instructions[i])
    (htarget : ∀ instruction ∈ instructions, ∀ target, instruction.target = some target →
      target ≤ program.length ∧ target ≤ 0x3FFF) :
    (∀ index, (∃ instruction ∈ instructions, instruction.target = some index) →
      labelName index = .ok (labelText index)) ∧
    ofProgramBy decoder program
      = .ok { lines := interleave (calledLabel? instructions) 0 instructions } := by
  have hdecodes : Decodes decoder program instructions :=
    ⟨hlength, hdecode,
      fun instruction hmem target ht => (htarget instruction hmem target ht).2⟩
  refine ⟨?_, ofProgramBy_of_decodes decoder program instructions hdecodes
    (fun instruction hmem target ht => (htarget instruction hmem target ht).1)⟩
  rintro index ⟨instruction, hmem, ht⟩
  exact labelName_of_le index (htarget instruction hmem index ht).2

/-- A branch that shows nothing but where it leads. -/
def bareBranch (target : ℕ) : Instruction :=
  { operation := .beq, format := .immediate, text := "", target := some target }

/-- Three branches, two to the end of the program and one to its first word. -/
theorem ofProgramBy_eq_interleave_bareBranch :
    let decoder : Decoder := fun _ index size => .ok (bareBranch (if index = 1 then 0 else size))
    let program : List Word := [7, 7, 7]
    let instructions := [bareBranch 3, bareBranch 0, bareBranch 3]
    (∀ instruction ∈ instructions, ∀ target, instruction.target = some target →
      target ≤ program.length ∧ target ≤ 0x3FFF) ∧
    ofProgramBy decoder program = .ok { lines :=
      [.label 0 "Addr_0000", .instruction 0 (bareBranch 3), .instruction 1 (bareBranch 0),
       .instruction 2 (bareBranch 3), .label 3 "Addr_000C"] } := by
  intro decoder program instructions
  have htarget : ∀ instruction ∈ instructions, ∀ target, instruction.target = some target →
      target ≤ program.length ∧ target ≤ 0x3FFF := by
    simp [instructions, program, bareBranch]
  have hdecode : ∀ (i : ℕ) (hi : i < program.length) (hi' : i < instructions.length),
      decoder program[i] i program.length = .ok instructions[i] := by
    intro i hi _
    have : i < 3 := hi
    interval_cases i <;> rfl
  refine ⟨htarget, ?_⟩
  exact (ofProgramBy_eq_interleave decoder program instructions rfl hdecode htarget).2.trans
    (by decide)

end Listing

end MipsListing
