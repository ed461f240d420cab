/-
# Decoding a whole program

The loop over the words keeps the instructions so far and the labels of the places to which they
branch.  A label is written only for a place that has none yet.  What the loop keeps is described
here without the loop, and the two outcomes of a run follow: it succeeds if every word is accepted
at its position, and else it ends at the first word that is not.

* `Decoding.Holds` : what the loop has kept after some instructions;
* `Decoding.ofProgram_of_accepts` : a run over accepted words;
* `Decoding.ofProgram_of_refused` : a run that meets a refused word.
-/
import MipsListing.Listing
import MipsListing.Proofs.Label
import MipsListing.Proofs.Reading

namespace MipsListing

/-! ## Words that are accepted -/

/-- Every place to which the instruction branches has a name. -/
def Instruction.Nameable (instruction : Instruction) : Prop :=
  ∀ target, instruction.target = some target → target ≤ 0x3FFF

/-- The decoder turns the word at a position into an instruction, and the place to which it
branches has a name. -/
def Decoder.Accepts (decoder : Decoder) (size : ℕ) (word : Word) (index : ℕ) : Prop :=
  ∃ instruction, decoder word index size = .ok instruction ∧ instruction.Nameable

/-- The word at a position is refused, by the decoder or for want of a name for the place to
which it branches. -/
inductive Decoder.Refuses (decoder : Decoder) (size : ℕ) (word : Word) (index : ℕ) :
    Refusal → Prop where
  | undecoded (cause : Refusal) (h : decoder word index size = .error cause) :
    Refuses decoder size word index cause
  | unnamed (instruction : Instruction) (target : ℕ) (cause : Refusal)
    (h : decoder word index size = .ok instruction) (htarget : instruction.target = some target)
    (hname : labelName target = .error cause) :
    Refuses decoder size word index cause

/-- The instructions of a program, each at the position of its word. -/
structure Decodes (decoder : Decoder) (program : List Word) (instructions : List Instruction) :
    Prop where
  /-- There is one instruction for each word. -/
  length_eq : instructions.length = program.length
  /-- Each is what the decoder makes of its word. -/
  decoded : ∀ (i : ℕ) (hi : i < program.length) (hi' : i < instructions.length),
    decoder program[i] i program.length = .ok instructions[i]
  /-- The places to which they branch have names. -/
  nameable : ∀ instruction ∈ instructions, instruction.Nameable

/-- Every word of a decoded program is accepted. -/
theorem Decodes.accepts {decoder : Decoder} {program : List Word}
    {instructions : List Instruction} (h : Decodes decoder program instructions) (i : ℕ)
    (hi : i < program.length) : decoder.Accepts program.length program[i] i := by
  have hi' : i < instructions.length := by rwa [h.length_eq]
  exact ⟨instructions[i], h.decoded i hi hi', h.nameable _ (List.getElem_mem hi')⟩

/-- A program is decoded in one way at most. -/
theorem Decodes.unique {decoder : Decoder} {program : List Word} {as bs : List Instruction}
    (ha : Decodes decoder program as) (hb : Decodes decoder program bs) : as = bs := by
  apply List.ext_getElem (by rw [ha.length_eq, hb.length_eq])
  intro i hia hib
  have hi : i < program.length := by rwa [← ha.length_eq]
  exact Except.ok.inj ((ha.decoded i hi hia).symm.trans (hb.decoded i hi hib))

/-- A word is accepted or refused at its position. -/
theorem Decoder.accepts_or_refuses (decoder : Decoder) (size : ℕ) (word : Word) (index : ℕ) :
    decoder.Accepts size word index ∨ ∃ cause, decoder.Refuses size word index cause := by
  cases hdec : decoder word index size with
  | error cause => exact Or.inr ⟨cause, .undecoded cause hdec⟩
  | ok instruction =>
    by_cases hname : instruction.Nameable
    · exact Or.inl ⟨instruction, hdec, hname⟩
    · have hfar : ∃ target, instruction.target = some target ∧ 0x3FFF < target := by
        simpa [Instruction.Nameable] using hname
      obtain ⟨target, htarget, hlt⟩ := hfar
      exact Or.inr ⟨_, .unnamed instruction target _ hdec htarget (labelName_of_lt target hlt)⟩

/-! ## What the loop keeps -/

/-- The label of a position, if one of the instructions branches there. -/
def calledLabel? (instructions : List Instruction) (index : ℕ) : Option String :=
  if ∃ instruction ∈ instructions, instruction.target = some index then some (labelText index)
  else none

/-- The positions that are labelled, and their labels. -/
theorem calledLabel?_eq_some_iff (instructions : List Instruction) (index : ℕ) (name : String) :
    calledLabel? instructions index = some name ↔
      (∃ instruction ∈ instructions, instruction.target = some index) ∧ name = labelText index := by
  unfold calledLabel?
  split
  · rename_i h
    simp [h, eq_comm]
  · rename_i h
    simp [h]

/-- One more instruction that does not branch calls for no label. -/
theorem calledLabel?_append_of_none (instructions : List Instruction) (instruction : Instruction)
    (h : instruction.target = none) :
    calledLabel? (instructions ++ [instruction]) = calledLabel? instructions := by
  funext index
  simp [calledLabel?, or_and_right, exists_or, h]

/-- One more instruction that branches calls for the label of its target. -/
theorem calledLabel?_append_of_some (instructions : List Instruction) (instruction : Instruction)
    (target : ℕ) (h : instruction.target = some target) (index : ℕ) :
    calledLabel? (instructions ++ [instruction]) index =
      if target = index then some (labelText index) else calledLabel? instructions index := by
  by_cases ht : target = index
  · simp [calledLabel?, or_and_right, exists_or, h, ht]
  · simp [calledLabel?, or_and_right, exists_or, h, ht]

/-- The loop has kept the given instructions, and exactly the labels that they call for. -/
structure Decoding.Holds (decoding : Decoding) (instructions : List Instruction) : Prop where
  instructions_eq : decoding.instructions.toList = instructions
  nameable : ∀ instruction ∈ instructions, instruction.Nameable
  labels_eq : ∀ index : ℕ, decoding.labels[index]? = calledLabel? instructions index

namespace Decoding

/-- At the start there is nothing. -/
theorem holds_empty : ({} : Decoding).Holds [] where
  instructions_eq := rfl
  nameable := by simp
  labels_eq := by
    intro index
    simp [calledLabel?]

/-- Naming the target of one more instruction: the label is written unless it is there. -/
theorem record_of_nameable (decoding : Decoding) (before : List Instruction)
    (hholds : decoding.Holds before) (instruction : Instruction) (hname : instruction.Nameable) :
    ∃ labels, decoding.labels.record instruction.target = .ok labels ∧
      ∀ index : ℕ, labels[index]? = calledLabel? (before ++ [instruction]) index := by
  cases ht : instruction.target with
  | none =>
    refine ⟨decoding.labels, rfl, fun index => ?_⟩
    rw [calledLabel?_append_of_none before instruction ht, hholds.labels_eq]
  | some target =>
    simp only [LabelMap.record]
    by_cases hmem : decoding.labels.contains target
    · -- the label that is there already is the one that the target calls for
      have hthere : (calledLabel? before target).isSome := by
        rw [← hholds.labels_eq, Std.TreeMap.isSome_getElem?_eq_contains, hmem]
      obtain ⟨name, hlabel⟩ := Option.isSome_iff_exists.mp hthere
      have hname := ((calledLabel?_eq_some_iff _ _ _).mp hlabel).2
      refine ⟨decoding.labels, by rw [if_pos hmem], fun index => ?_⟩
      rw [calledLabel?_append_of_some before instruction target ht, hholds.labels_eq]
      split
      · rename_i heq
        rw [← heq, hlabel, hname]
      · rfl
    · rw [if_neg hmem, labelName_of_le target (hname target ht)]
      refine ⟨decoding.labels.insert target (labelText target), rfl, fun index => ?_⟩
      rw [Std.TreeMap.getElem?_insert, calledLabel?_append_of_some before instruction target ht,
        hholds.labels_eq]
      by_cases heq : target = index
      · rw [if_pos (Nat.compare_eq_eq.mpr heq), if_pos heq, heq]
      · rw [if_neg (fun h => heq (Nat.compare_eq_eq.mp h)), if_neg heq]

/-- A target without a name is refused: no earlier instruction can have named it. -/
theorem record_of_refused (decoding : Decoding) (before : List Instruction)
    (hholds : decoding.Holds before) (target : ℕ) (cause : Refusal)
    (hname : labelName target = .error cause) :
    decoding.labels.record (some target) = .error cause := by
  have hmem : ¬ decoding.labels.contains target := by
    intro hmem
    have hthere : (calledLabel? before target).isSome := by
      rw [← hholds.labels_eq, Std.TreeMap.isSome_getElem?_eq_contains, hmem]
    obtain ⟨name, hlabel⟩ := Option.isSome_iff_exists.mp hthere
    obtain ⟨⟨instruction, hinstruction, htarget⟩, -⟩ := (calledLabel?_eq_some_iff _ _ _).mp hlabel
    have hle := hholds.nameable instruction hinstruction target htarget
    rw [labelName_of_le target hle] at hname
    simp at hname
  simp only [LabelMap.record]
  rw [if_neg hmem, hname]
  rfl

/-! ## One word -/

/-- An accepted word is kept, and so is the label of its target. -/
theorem next_of_accepted (decoder : Decoder) (size : ℕ) (decoding : Decoding)
    (before : List Instruction) (hholds : decoding.Holds before) (word : Word) (index : ℕ)
    (instruction : Instruction) (hdec : decoder word index size = .ok instruction)
    (hname : instruction.Nameable) :
    ∃ after, decoding.next decoder size (word, index) = .ok after ∧
      after.Holds (before ++ [instruction]) := by
  obtain ⟨labels, hrecord, hlabels⟩ := record_of_nameable decoding before hholds instruction hname
  refine ⟨{ instructions := decoding.instructions.push instruction, labels }, ?_, ?_, ?_, hlabels⟩
  · simp only [next, step, hdec, bind, Except.bind, hrecord]
    rfl
  · rw [Array.toList_push, hholds.instructions_eq]
  · intro other hmem
    rcases List.mem_append.mp hmem with hmem | hmem
    · exact hholds.nameable other hmem
    · rwa [List.mem_singleton.mp hmem]

/-- A refused word ends the run, with the refusal pinned to it. -/
theorem next_of_refused (decoder : Decoder) (size : ℕ) (decoding : Decoding)
    (before : List Instruction) (hholds : decoding.Holds before) (word : Word) (index : ℕ)
    (cause : Refusal) (hrefuses : decoder.Refuses size word index cause) :
    decoding.next decoder size (word, index) = .error (refusalAt word index cause) := by
  cases hrefuses with
  | undecoded _ hdec =>
    simp only [next, step, hdec]
    rfl
  | unnamed instruction target _ hdec htarget hname =>
    have hrecord := record_of_refused decoding before hholds target cause hname
    simp only [next, step, hdec, bind, Except.bind, htarget, hrecord]
    rfl

/-! ## A run over many words -/

/-- A run over accepted words keeps what the decoder makes of them. -/
theorem foldlM_next_of_accepts (decoder : Decoder) (size : ℕ) (words : List Word) :
    ∀ (start : ℕ) (decoding : Decoding) (before : List Instruction), decoding.Holds before →
      (∀ (i : ℕ) (hi : i < words.length), decoder.Accepts size words[i] (start + i)) →
      ∃ after instructions, (words.zipIdx start).foldlM (next decoder size) decoding = .ok after ∧
        after.Holds (before ++ instructions) ∧ instructions.length = words.length ∧
        ∀ (i : ℕ) (hi : i < words.length) (hi' : i < instructions.length),
          decoder words[i] (start + i) size = .ok instructions[i] := by
  induction words with
  | nil =>
    intro start decoding before hholds _
    exact ⟨decoding, [], rfl, by simpa using hholds, rfl, by simp⟩
  | cons word words ih =>
    -- what the loop holds after the first word is what it holds before the others
    intro start decoding before hholds haccepts
    obtain ⟨instruction, hdec, hname⟩ := haccepts 0 (by simp)
    obtain ⟨middle, hnext, hmiddle⟩ :=
      next_of_accepted decoder size decoding before hholds word start instruction hdec hname
    have hrest : ∀ (i : ℕ) (hi : i < words.length),
        decoder.Accepts size words[i] (start + 1 + i) := by
      intro i hi
      have := haccepts (i + 1) (by simpa using hi)
      rwa [List.getElem_cons_succ, show start + (i + 1) = start + 1 + i from by omega] at this
    obtain ⟨after, instructions, hrun, hafter, hlength, hdecoded⟩ :=
      ih (start + 1) middle _ hmiddle hrest
    refine ⟨after, instruction :: instructions, ?_, ?_, ?_, ?_⟩
    · rw [List.zipIdx_cons, List.foldlM_cons, hnext]
      exact hrun
    · rwa [List.append_assoc, List.singleton_append] at hafter
    · rw [List.length_cons, List.length_cons, hlength]
    · intro i hi hi'
      cases i with
      | zero => exact hdec
      | succ i =>
        have := hdecoded i (by simpa using hi) (by simpa using hi')
        rwa [show start + 1 + i = start + (i + 1) from by omega] at this

/-- **A run over accepted words** decodes the program. -/
theorem ofProgram_of_accepts (decoder : Decoder) (program : List Word)
    (haccepts : ∀ (i : ℕ) (hi : i < program.length),
      decoder.Accepts program.length program[i] i) :
    ∃ decoding instructions, ofProgram decoder program = .ok decoding ∧
      decoding.Holds instructions ∧ Decodes decoder program instructions := by
  obtain ⟨decoding, instructions, hrun, hholds, hlength, hdecoded⟩ :=
    foldlM_next_of_accepts decoder program.length program 0 {} [] holds_empty
      (by simpa using haccepts)
  rw [List.nil_append] at hholds
  refine ⟨decoding, instructions, hrun, hholds, hlength, ?_, hholds.nameable⟩
  simpa using hdecoded

/-- **A run that meets a refused word** ends at the first one, whatever follows. -/
theorem ofProgram_of_refused (decoder : Decoder) (program : List Word) (i : ℕ)
    (hi : i < program.length) (cause : Refusal)
    (hrefuses : decoder.Refuses program.length program[i] i cause)
    (hbefore : ∀ (j : ℕ) (hj : j < program.length), j < i →
      decoder.Accepts program.length program[j] j) :
    ofProgram decoder program = .error (refusalAt program[i] i cause) := by
  -- the words above the refused one are a run of their own
  have hsplit : program = program.take i ++ program[i] :: program.drop (i + 1) := by simp
  have hlength : (program.take i).length = i := by
    rw [List.length_take]
    omega
  obtain ⟨decoding, instructions, hrun, hholds, -, -⟩ :=
    foldlM_next_of_accepts decoder program.length (program.take i) 0 {} [] holds_empty
      (by
        intro j hj
        rw [List.getElem_take, Nat.zero_add]
        exact hbefore j (by omega) (by omega))
  have hzip : program.zipIdx
      = (program.take i).zipIdx ++ (program[i], i) :: (program.drop (i + 1)).zipIdx (i + 1) := by
    conv_lhs => rw [hsplit]
    rw [List.zipIdx_append, List.zipIdx_cons, hlength, Nat.zero_add]
  unfold ofProgram
  rw [hzip, List.foldlM_append, hrun]
  show List.foldlM _ decoding _ = _
  rw [List.foldlM_cons,
    next_of_refused decoder program.length decoding _ hholds program[i] i cause hrefuses]
  rfl

/-- A program is decoded word by word, or it has a first word that is refused. -/
theorem decodes_or_refuses (decoder : Decoder) (program : List Word) :
    (∃ instructions, Decodes decoder program instructions) ∨
      ∃ (i : ℕ) (hi : i < program.length) (cause : Refusal),
        decoder.Refuses program.length program[i] i cause ∧
          ∀ (j : ℕ) (hj : j < program.length), j < i →
            decoder.Accepts program.length program[j] j := by
  rcases forall_or_exists_first (fun i word => decoder.Accepts program.length word i) program
    with hall | ⟨i, hi, hnot, hbefore⟩
  · obtain ⟨-, instructions, -, -, hdecodes⟩ := ofProgram_of_accepts decoder program hall
    exact Or.inl ⟨instructions, hdecodes⟩
  · obtain ⟨cause, hrefuses⟩ := (decoder.accepts_or_refuses _ _ _).resolve_left hnot
    exact Or.inr ⟨i, hi, cause, hrefuses, hbefore⟩

end Decoding

end MipsListing
