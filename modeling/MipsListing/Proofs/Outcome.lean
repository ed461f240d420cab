/-
# How a disassembly ends

Under any decoder a disassembly ends in one of three ways.  If a word is refused, by the decoder
or for want of a name for the place to which it branches, the first such word is reported.  If no
word is refused, only the greatest of all targets matters: its label is the first to be inserted,
and every label below it finds at least as many lines.

* `foldrM_insertLabel_of_le`, `foldrM_insertLabel_of_lt` : the two outcomes of the insertions;
* `Decoder.accepts_iff_not_refuses` : no word is both accepted and refused;
* `Listing.ofProgramBy_outcome` : the three outcomes of a program.
-/
import MipsListing.Proofs.Placement

namespace MipsListing

/-! ## The two outcomes of the insertions -/

/-- Labels up to the number of lines are all inserted, and each adds one line. -/
theorem foldrM_insertLabel_of_le (entries : List (ℕ × String)) (lines : List Line)
    (h : ∀ entry ∈ entries, entry.1 ≤ lines.length) :
    ∃ after, entries.foldrM insertLabel lines = .ok after ∧
      after.length = lines.length + entries.length := by
  induction entries with
  | nil => exact ⟨lines, rfl, rfl⟩
  | cons entry entries ih =>
    -- the entries behind the first one are inserted before it, which only adds lines
    obtain ⟨middle, hmiddle, hlength⟩ := ih (fun e he => h e (List.mem_cons_of_mem _ he))
    have hplace : entry.1 ≤ middle.length := by
      have := h entry List.mem_cons_self
      omega
    refine ⟨middle.insertIdx entry.1 (.label entry.1 entry.2), ?_, ?_⟩
    · rw [List.foldrM_cons, hmiddle]
      show insertLabel entry middle = _
      unfold insertLabel
      rw [if_neg (not_lt.mpr hplace)]
    · rw [List.length_insertIdx_of_le_length hplace, hlength, List.length_cons]
      omega

/-- A last label beyond the lines has no place, and no other label is inserted. -/
theorem foldrM_insertLabel_of_lt (entries : List (ℕ × String)) (lines : List Line) (index : ℕ)
    (name : String) (h : lines.length < index) :
    (entries ++ [(index, name)]).foldrM insertLabel lines = .error (.targetPastEnd index) := by
  have hlast : [(index, name)].foldrM insertLabel lines = .error (.targetPastEnd index) := by
    rw [List.foldrM_cons, List.foldrM_nil]
    show insertLabel (index, name) lines = _
    unfold insertLabel
    rw [if_pos h]
  rw [List.foldrM_append, hlast]
  rfl

/-- The greatest of the labelled positions is that of the last entry. -/
theorem Lists.exists_concat {entries : List (ℕ × String)} {f : ℕ → Option String}
    (h : Lists entries f) (index : ℕ) (name : String) (hname : f index = some name)
    (hgreatest : ∀ i, f i ≠ none → i ≤ index) :
    ∃ lower, entries = lower ++ [(index, name)] := by
  obtain ⟨lower, higher, rfl⟩ := List.append_of_mem ((h.mem_iff index name).mpr hname)
  cases higher with
  | nil => exact ⟨lower, rfl⟩
  | cons entry higher =>
    -- an entry behind it would have a higher position
    have hsorted := (List.pairwise_append.mp h.sorted).2.1
    have hlt : index < entry.1 := (List.pairwise_cons.mp hsorted).1 entry List.mem_cons_self
    have hlabelled : f entry.1 = some entry.2 := (h.mem_iff _ _).mp (by simp)
    have hle := hgreatest entry.1 (by simp [hlabelled])
    omega

/-! ## The greatest target -/

/-- The greatest of the positions to which the instructions branch. -/
def greatestTarget? (instructions : List Instruction) : Option ℕ :=
  (instructions.filterMap Instruction.target).max?

/-- The greatest target is a target, and no target is greater. -/
theorem greatestTarget?_eq_some_iff (instructions : List Instruction) (target : ℕ) :
    greatestTarget? instructions = some target ↔
      (∃ instruction ∈ instructions, instruction.target = some target) ∧
        ∀ instruction ∈ instructions, ∀ other,
          instruction.target = some other → other ≤ target := by
  unfold greatestTarget?
  rw [List.max?_eq_some_iff, List.mem_filterMap]
  refine and_congr_right fun _ => ⟨?_, ?_⟩
  · intro h instruction hmem other hother
    exact h other (List.mem_filterMap.mpr ⟨instruction, hmem, hother⟩)
  · intro h other hother
    obtain ⟨instruction, hmem, htarget⟩ := List.mem_filterMap.mp hother
    exact h instruction hmem other htarget

/-- All targets lie in a program if the greatest does. -/
theorem target_le_of_greatestTarget? (instructions : List Instruction) (size : ℕ)
    (h : ∀ target, greatestTarget? instructions = some target → target ≤ size) :
    ∀ instruction ∈ instructions, ∀ target, instruction.target = some target → target ≤ size := by
  intro instruction hmem target htarget
  have hlisted : target ∈ instructions.filterMap Instruction.target :=
    List.mem_filterMap.mpr ⟨instruction, hmem, htarget⟩
  cases hgreatest : greatestTarget? instructions with
  | none =>
    have hempty : instructions.filterMap Instruction.target = [] :=
      List.max?_eq_none_iff.mp hgreatest
    rw [hempty] at hlisted
    simp at hlisted
  | some greatest =>
    have hle := ((greatestTarget?_eq_some_iff _ _).mp hgreatest).2 instruction hmem target htarget
    exact hle.trans (h greatest hgreatest)

/-- Nothing is placed if the greatest target lies behind the end. -/
theorem LabelMap.placeIn_of_lt (decoding : Decoding) (instructions : List Instruction)
    (hholds : decoding.Holds instructions) (target : ℕ)
    (hgreatest : greatestTarget? instructions = some target)
    (hlt : instructions.length < target) :
    decoding.labels.placeIn (instructionLines instructions)
      = .error (.targetPastEnd target) := by
  obtain ⟨hcalled, hle⟩ := (greatestTarget?_eq_some_iff _ _).mp hgreatest
  have hname : calledLabel? instructions target = some (labelText target) :=
    (calledLabel?_eq_some_iff _ _ _).mpr ⟨hcalled, rfl⟩
  obtain ⟨lower, hlower⟩ := hholds.lists.exists_concat target _ hname (by
    intro i hi
    obtain ⟨name, hlabel⟩ := Option.ne_none_iff_exists'.mp hi
    obtain ⟨⟨instruction, hmem, htarget⟩, -⟩ := (calledLabel?_eq_some_iff _ _ _).mp hlabel
    exact hle instruction hmem i htarget)
  unfold placeIn
  rw [hlower]
  apply foldrM_insertLabel_of_lt
  simpa [instructionLines] using hlt

/-! ## Words that are refused -/

/-- A word is accepted exactly if it is not refused. -/
theorem Decoder.accepts_iff_not_refuses (decoder : Decoder) {size : ℕ} {word : Word}
    {index : ℕ} :
    decoder.Accepts size word index ↔ ∀ cause, ¬ decoder.Refuses size word index cause := by
  constructor
  · rintro ⟨instruction, hdec, hnameable⟩ cause hrefuses
    cases hrefuses with
    | undecoded _ herror =>
      rw [hdec] at herror
      simp at herror
    | unnamed other target _ hother htarget hname =>
      obtain rfl : instruction = other := Except.ok.inj (hdec.symm.trans hother)
      rw [labelName_of_le target (hnameable target htarget)] at hname
      simp at hname
  · intro hnone
    rcases decoder.accepts_or_refuses size word index with haccepts | ⟨cause, hrefuses⟩
    · exact haccepts
    · exact absurd hrefuses (hnone cause)

namespace Listing

/-! ## The three outcomes of a program -/

/-- A program whose words are decoded has no listing if the greatest target lies behind its
end. -/
theorem ofProgramBy_of_decodes_of_lt (decoder : Decoder) (program : List Word)
    (instructions : List Instruction) (hdecodes : Decodes decoder program instructions)
    (target : ℕ) (hgreatest : greatestTarget? instructions = some target)
    (hlt : program.length < target) :
    ofProgramBy decoder program = .error (.targetPastEnd target) := by
  obtain ⟨decoding, -, hholds, hrun⟩ :=
    exists_placeIn_of_decodes decoder program instructions hdecodes
  rw [hrun, LabelMap.placeIn_of_lt decoding instructions hholds target hgreatest
    (by rwa [hdecodes.length_eq])]
  rfl

/-- A program whose words are decoded has a listing, or the greatest target lies behind its
end. -/
theorem ofProgramBy_of_decodes_cases (decoder : Decoder) (program : List Word)
    (instructions : List Instruction) (hdecodes : Decodes decoder program instructions) :
    ((∀ target, greatestTarget? instructions = some target → target ≤ program.length) ∧
      ∃ listing, ofProgramBy decoder program = .ok listing) ∨
    ∃ target, greatestTarget? instructions = some target ∧ program.length < target ∧
      ofProgramBy decoder program = .error (.targetPastEnd target) := by
  by_cases hend : ∀ target, greatestTarget? instructions = some target → target ≤ program.length
  · have htarget := target_le_of_greatestTarget? instructions program.length hend
    exact Or.inl ⟨hend, _, ofProgramBy_of_decodes decoder program instructions hdecodes htarget⟩
  · push Not at hend
    obtain ⟨target, hgreatest, hlt⟩ := hend
    exact Or.inr ⟨target, hgreatest, hlt,
      ofProgramBy_of_decodes_of_lt decoder program instructions hdecodes target hgreatest hlt⟩

/-- The insertions fail exactly at a greatest target behind the end. -/
theorem ofProgramBy_eq_targetPastEnd_iff (decoder : Decoder) (program : List Word)
    (instructions : List Instruction) (hdecodes : Decodes decoder program instructions)
    (target : ℕ) :
    ofProgramBy decoder program = .error (.targetPastEnd target) ↔
      greatestTarget? instructions = some target ∧ program.length < target := by
  constructor
  · intro hpast
    rcases ofProgramBy_of_decodes_cases decoder program instructions hdecodes
      with ⟨-, listing, hok⟩ | ⟨greatest, hgreatest, hlt, herror⟩
    · simp [hok] at hpast
    · obtain rfl := ListingFailure.targetPastEnd.inj (Except.error.inj (herror.symm.trans hpast))
      exact ⟨hgreatest, hlt⟩
  · rintro ⟨hgreatest, hlt⟩
    exact ofProgramBy_of_decodes_of_lt decoder program instructions hdecodes target hgreatest hlt

/-- A program whose words are decoded has a listing exactly if the greatest target is not behind
its end. -/
theorem exists_ofProgramBy_iff (decoder : Decoder) (program : List Word)
    (instructions : List Instruction) (hdecodes : Decodes decoder program instructions) :
    (∃ listing, ofProgramBy decoder program = .ok listing) ↔
      ∀ target, greatestTarget? instructions = some target → target ≤ program.length := by
  rcases ofProgramBy_of_decodes_cases decoder program instructions hdecodes
    with ⟨hend, hok⟩ | ⟨target, hgreatest, hlt, herror⟩
  · exact iff_of_true hok hend
  · refine iff_of_false ?_ (fun hend => not_le.mpr hlt (hend target hgreatest))
    rintro ⟨listing, hok⟩
    simp [herror] at hok

/-- A line is reported exactly if its word is the first that is refused. -/
theorem ofProgramBy_eq_atLine_iff (decoder : Decoder) (program : List Word)
    (error : LineRefusal) :
    ofProgramBy decoder program = .error (.atLine error) ↔
      ∃ (i : ℕ) (hi : i < program.length) (cause : Refusal),
        error = refusalAt program[i] i cause ∧
        decoder.Refuses program.length program[i] i cause ∧
        ∀ (j : ℕ) (hj : j < program.length), j < i →
          decoder.Accepts program.length program[j] j := by
  constructor
  · intro herror
    rcases Decoding.decodes_or_refuses decoder program
      with ⟨instructions, hdecodes⟩ | ⟨i, hi, cause, hrefuses, hbefore⟩
    · rcases ofProgramBy_of_decodes_cases decoder program instructions hdecodes
        with ⟨-, listing, hok⟩ | ⟨target, -, -, hpast⟩
      · simp [hok] at herror
      · simp [hpast] at herror
    · rw [ofProgramBy_of_refused decoder program i hi cause hrefuses hbefore] at herror
      have heq := ListingFailure.atLine.inj (Except.error.inj herror)
      exact ⟨i, hi, cause, heq.symm, hrefuses, hbefore⟩
  · rintro ⟨i, hi, cause, rfl, hrefuses, hbefore⟩
    exact ofProgramBy_of_refused decoder program i hi cause hrefuses hbefore

/-- **How a disassembly ends**, whatever the decoder is.  A line is reported exactly if its word
is the first that is refused, and with the cause for which it is refused.  If no word is refused,
every word has its instruction; then the program has a listing if the greatest target of its
instructions is not behind its end, and else the insertions fail at that target. -/
theorem ofProgramBy_outcome (decoder : Decoder) (program : List Word) :
    (∀ error : LineRefusal, ofProgramBy decoder program = .error (.atLine error) ↔
      ∃ (i : ℕ) (hi : i < program.length) (cause : Refusal),
        error = { line := i + 1, word := program[i].toHex, cause } ∧
        decoder.Refuses program.length program[i] i cause ∧
        ∀ (j : ℕ) (hj : j < program.length), j < i →
          ∀ other, ¬ decoder.Refuses program.length program[j] j other) ∧
    ((∀ (i : ℕ) (hi : i < program.length) (cause : Refusal),
        ¬ decoder.Refuses program.length program[i] i cause) →
      ∃ instructions : List Instruction, instructions.length = program.length ∧
        (∀ (i : ℕ) (hi : i < program.length) (hi' : i < instructions.length),
          decoder program[i] i program.length = .ok instructions[i]) ∧
        (∀ target, ofProgramBy decoder program = .error (.targetPastEnd target) ↔
          greatestTarget? instructions = some target ∧ program.length < target) ∧
        ((∃ listing, ofProgramBy decoder program = .ok listing) ↔
          ∀ target, greatestTarget? instructions = some target → target ≤ program.length)) := by
  refine ⟨fun error => ?_, fun hnone => ?_⟩
  · simp only [ofProgramBy_eq_atLine_iff, Decoder.accepts_iff_not_refuses]
    rfl
  · have haccepts : ∀ (i : ℕ) (hi : i < program.length),
        decoder.Accepts program.length program[i] i :=
      fun i hi => decoder.accepts_iff_not_refuses.mpr (hnone i hi)
    obtain ⟨-, instructions, -, -, hdecodes⟩ :=
      Decoding.ofProgram_of_accepts decoder program haccepts
    exact ⟨instructions, hdecodes.length_eq, hdecodes.decoded,
      ofProgramBy_eq_targetPastEnd_iff decoder program instructions hdecodes,
      exists_ofProgramBy_iff decoder program instructions hdecodes⟩

/-- Of three words the second branches to a place without a name and the third is not decoded at
all; the second is reported.  Of three branches one leads behind the end of the program, and the
insertions fail at its target. -/
theorem ofProgramBy_outcome_bareBranch :
    let program : List Word := [7, 8, 9]
    let stray : Decoder := fun _ index _ =>
      if index = 2 then .error (.unknownRegister 32)
      else .ok (bareBranch (if index = 1 then 0x4000 else 3))
    let wide : Decoder := fun _ index _ => .ok (bareBranch (if index = 1 then 5 else 2))
    ofProgramBy stray program = .error (.atLine
      { line := 2, word := "00000008",
        cause := .fieldTooWide "65536" (.digits .hexadecimal) 4 }) ∧
    ofProgramBy wide program = .error (.targetPastEnd 5) := by
  intro program stray wide
  constructor
  · have hname : labelName 0x4000
        = .error (.fieldTooWide "65536" (.digits .hexadecimal) 4) := by decide
    refine ((ofProgramBy_outcome stray program).1 _).mpr
      ⟨1, by decide, _, by decide, .unnamed (bareBranch 0x4000) 0x4000 _ rfl rfl hname, ?_⟩
    intro j hj hlt
    obtain rfl : j = 0 := by omega
    exact stray.accepts_iff_not_refuses.mp
      ⟨bareBranch 3, rfl, by simp [Instruction.Nameable, bareBranch]⟩
  · have hnone : ∀ (i : ℕ) (hi : i < program.length) (cause : Refusal),
        ¬ wide.Refuses program.length program[i] i cause := by
      intro i hi
      refine wide.accepts_iff_not_refuses.mp ⟨_, rfl, ?_⟩
      intro target htarget
      obtain rfl := Option.some.inj htarget
      split <;> decide
    obtain ⟨instructions, hlength, hdecoded, hpast, -⟩ := (ofProgramBy_outcome wide program).2 hnone
    have hlist : instructions = [bareBranch 2, bareBranch 5, bareBranch 2] := by
      apply List.ext_getElem hlength
      intro i hi hi'
      have h3 : i < 3 := hi'
      have := hdecoded i h3 hi
      interval_cases i <;> exact (Except.ok.inj this).symm
    rw [hpast, hlist]
    decide

end Listing

end MipsListing
