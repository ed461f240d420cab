/-
# Interleaving labels and instructions

The lines of a program written in one pass from top to bottom: at every position first its
label, if it has one, and then its instruction.  The position behind the last instruction can
have a label too.  Which labels a pass writes depends only on the positions from its start on, one
more label is one more line, and the lines from a position on stand together behind all lines of
lower positions.

* `interleave` : the pass;
* `insertIdx_interleave` : inserting a label line above all other labels;
* `interleave_split` : the lines above a position and the lines from it on;
* `pairwise_labels_interleave`, `isChain_interleave` : the labels rise and never touch;
* `getElem?_interleave_of_label`, `getElem?_interleave_of_instruction` : which line stands where.
-/
import Mathlib
import MipsListing.Listing

namespace MipsListing

/-! ## The pass -/

/-- The label line of a position that has a label. -/
def labelLine? (label? : Nat → Option String) (index : Nat) : Option Line :=
  (label? index).map (.label index)

/-- The lines of the instructions from position `index` on, each behind the label of its
position. -/
def interleave (label? : Nat → Option String) (index : Nat) : List Instruction → List Line
  | [] => (labelLine? label? index).toList
  | instruction :: rest =>
    (labelLine? label? index).toList
      ++ .instruction index instruction :: interleave label? (index + 1) rest

/-- The position of a line: that of the instruction, or of the place that the label marks. -/
def Line.position : Line → ℕ
  | .label index _ => index
  | .instruction index _ => index

/-! ## The first line of a pass -/

/-- The first instruction of a pass, at a position without a label. -/
theorem interleave_cons_of_none (f : ℕ → Option String) (start : ℕ) (instruction : Instruction)
    (rest : List Instruction) (h : f start = none) :
    interleave f start (instruction :: rest)
      = .instruction start instruction :: interleave f (start + 1) rest := by
  rw [interleave, labelLine?, h]
  rfl

/-- The first instruction of a pass, below the label of its position. -/
theorem interleave_cons_of_some (f : ℕ → Option String) (start : ℕ) (instruction : Instruction)
    (rest : List Instruction) (name : String) (h : f start = some name) :
    interleave f start (instruction :: rest)
      = .label start name :: .instruction start instruction
        :: interleave f (start + 1) rest := by
  rw [interleave, labelLine?, h]
  rfl

/-! ## Inserting one label -/

/-- A pass looks only at the labels from its start on. -/
theorem interleave_congr (f g : ℕ → Option String) (instructions : List Instruction) :
    ∀ start, (∀ i, start ≤ i → f i = g i) →
      interleave f start instructions = interleave g start instructions := by
  induction instructions with
  | nil =>
    intro start h
    rw [interleave, interleave, labelLine?, labelLine?, h start le_rfl]
  | cons instruction rest ih =>
    intro start h
    rw [interleave, interleave, labelLine?, labelLine?, h start le_rfl,
      ih (start + 1) (fun i hi => h i (by omega))]

/-- A pass without labels writes the instructions only. -/
theorem interleave_of_unlabelled (f : ℕ → Option String) (h : ∀ i, f i = none)
    (instructions : List Instruction) :
    ∀ start, interleave f start instructions = (instructions.zipIdx start).map
      fun (instruction, index) => .instruction index instruction := by
  induction instructions with
  | nil =>
    intro start
    rw [interleave, labelLine?, h start]
    rfl
  | cons instruction rest ih =>
    intro start
    rw [interleave, labelLine?, h start, ih (start + 1)]
    rfl

/-- Every instruction has its line. -/
theorem length_le_length_interleave (f : ℕ → Option String) (instructions : List Instruction) :
    ∀ start, instructions.length ≤ (interleave f start instructions).length := by
  induction instructions with
  | nil => intro start; exact Nat.zero_le _
  | cons instruction rest ih =>
    intro start
    have := ih (start + 1)
    rw [interleave, List.length_append, List.length_cons, List.length_cons]
    omega

/-- **One more label.**  If no position up to `start + k` is labelled, then a label line inserted
`k` lines below the top is the label of that position in one pass. -/
theorem insertIdx_interleave (name : String) :
    ∀ (k : ℕ) (f : ℕ → Option String) (start : ℕ) (instructions : List Instruction),
      k ≤ instructions.length → (∀ i, start ≤ i → i ≤ start + k → f i = none) →
      (interleave f start instructions).insertIdx k (.label (start + k) name)
        = interleave (Function.update f (start + k) (some name)) start instructions := by
  intro k
  induction k with
  | zero =>
    intro f start instructions _ hnone
    have hstart : f start = none := hnone start le_rfl le_rfl
    rw [List.insertIdx_zero, Nat.add_zero]
    cases instructions with
    | nil => simp [interleave, labelLine?, hstart]
    | cons instruction rest =>
      rw [interleave, interleave, labelLine?, labelLine?, hstart, Function.update_self,
        interleave_congr (Function.update f start (some name)) f rest (start + 1)
          (fun i hi => Function.update_of_ne (by omega) _ _)]
      rfl
  | succ k ih =>
    -- there is no label above the first instruction, so the label goes `k` lines into the rest
    intro f start instructions hk hnone
    have hstart : f start = none := hnone start le_rfl (by omega)
    cases instructions with
    | nil => simp at hk
    | cons instruction rest =>
      have htail := ih f (start + 1) rest (by simpa using hk)
        (fun i hi hi' => hnone i (by omega) (by omega))
      rw [show start + 1 + k = start + (k + 1) from by omega] at htail
      rw [interleave, interleave, labelLine?, labelLine?, hstart,
        Function.update_of_ne (by omega), hstart]
      show Line.instruction start instruction
          :: (interleave f (start + 1) rest).insertIdx k (.label (start + (k + 1)) name) = _
      rw [htail]
      rfl

/-! ## Lines and their positions -/

/-- No line of a pass has a position below its start. -/
theorem le_position_of_mem_interleave (f : ℕ → Option String) (instructions : List Instruction) :
    ∀ start, ∀ line ∈ interleave f start instructions, start ≤ line.position := by
  have hlabel : ∀ start, ∀ line ∈ (labelLine? f start).toList, line.position = start := by
    intro start line hline
    rw [Option.mem_toList, labelLine?, Option.map_eq_some_iff] at hline
    obtain ⟨name, -, rfl⟩ := hline
    rfl
  induction instructions with
  | nil =>
    intro start line hline
    exact (hlabel start line hline).ge
  | cons instruction rest ih =>
    intro start line hline
    rcases List.mem_append.mp hline with hline | hline
    · exact (hlabel start line hline).ge
    · rcases List.mem_cons.mp hline with rfl | hline
      · exact le_rfl
      · have := ih (start + 1) line hline
        omega

/-- **The lines from a position on** are those of a pass that starts there, and every line above
them has a lower position. -/
theorem interleave_split (f : ℕ → Option String) :
    ∀ (k start : ℕ) (instructions : List Instruction), k ≤ instructions.length →
      ∃ above, interleave f start instructions
          = above ++ interleave f (start + k) (instructions.drop k) ∧
        ∀ line ∈ above, line.position < start + k := by
  intro k
  induction k with
  | zero => intro start instructions _; exact ⟨[], by simp, by simp⟩
  | succ k ih =>
    intro start instructions hk
    cases instructions with
    | nil => simp at hk
    | cons instruction rest =>
      obtain ⟨above, hsplit, habove⟩ := ih (start + 1) rest (by simpa using hk)
      refine ⟨(labelLine? f start).toList ++ .instruction start instruction :: above, ?_, ?_⟩
      · rw [interleave, hsplit, show start + 1 + k = start + (k + 1) from by omega]
        simp
      · intro line hline
        rcases List.mem_append.mp hline with hline | hline
        · rw [Option.mem_toList, labelLine?, Option.map_eq_some_iff] at hline
          obtain ⟨name, -, rfl⟩ := hline
          show start < _
          omega
        · rcases List.mem_cons.mp hline with rfl | hline
          · show start < _
            omega
          · have := habove line hline
            omega

/-- From a labelled position on, a pass writes the label of the position, which it never writes
again, and then the instruction at the position, if it is not the end. -/
theorem interleave_of_labelled (f : ℕ → Option String) (index : ℕ) (name : String)
    (h : f index = some name) (rest : List Instruction) :
    ∃ below, interleave f index rest = .label index name :: below ∧
      (∀ line ∈ below, line ≠ .label index name) ∧
      ((rest = [] ∧ below = []) ∨
        (rest ≠ [] ∧ ∃ instruction lines, below = .instruction index instruction :: lines)) := by
  have hlabel : labelLine? f index = some (.label index name) := by
    unfold labelLine?
    rw [h]
    rfl
  cases rest with
  | nil =>
    refine ⟨[], ?_, by simp, Or.inl ⟨rfl, rfl⟩⟩
    rw [interleave, hlabel]
    rfl
  | cons instruction rest =>
    refine ⟨.instruction index instruction :: interleave f (index + 1) rest, ?_, ?_,
      Or.inr ⟨by simp, _, _, rfl⟩⟩
    · rw [interleave, hlabel]
      rfl
    · rintro line hline rfl
      rcases List.mem_cons.mp hline with heq | hline
      · exact absurd heq (by simp)
      · have hle := le_position_of_mem_interleave f rest (index + 1) _ hline
        exact absurd hle (by simp [Line.position])

/-! ## Labels and instructions -/

/-- A label line of a pass has the label of its position. -/
theorem eq_some_of_label_mem_interleave (f : ℕ → Option String) (instructions : List Instruction)
    (index : ℕ) (name : String) :
    ∀ start, .label index name ∈ interleave f start instructions → f index = some name := by
  have hlabel : ∀ start, .label index name ∈ (labelLine? f start).toList → f index = some name := by
    intro start hline
    rw [Option.mem_toList, labelLine?, Option.map_eq_some_iff] at hline
    obtain ⟨other, hother, heq⟩ := hline
    obtain ⟨rfl, rfl⟩ := Line.label.inj heq
    exact hother
  induction instructions with
  | nil => exact hlabel
  | cons instruction rest ih =>
    intro start hline
    rcases List.mem_append.mp hline with hline | hline
    · exact hlabel start hline
    · rcases List.mem_cons.mp hline with heq | hline
      · exact absurd heq (by simp)
      · exact ih (start + 1) hline

/-- A pass has a label line for every labelled position from its start to its end. -/
theorem label_mem_interleave_iff (f : ℕ → Option String) (instructions : List Instruction)
    (index : ℕ) (name : String) (hindex : index ≤ instructions.length) :
    .label index name ∈ interleave f 0 instructions ↔ f index = some name := by
  refine ⟨eq_some_of_label_mem_interleave f instructions index name 0, fun hname => ?_⟩
  obtain ⟨above, hsplit, -⟩ := interleave_split f index 0 instructions hindex
  obtain ⟨below, hbelow, -, -⟩ := interleave_of_labelled f index name hname
    (instructions.drop index)
  rw [hsplit, Nat.zero_add, hbelow]
  simp

/-- The labels among some lines are those of the label lines. -/
theorem mem_filterMap_label?_iff (lines : List Line) (index : ℕ) (name : String) :
    (index, name) ∈ lines.filterMap Line.label? ↔ .label index name ∈ lines := by
  rw [List.mem_filterMap]
  constructor
  · rintro ⟨line, hline, hlabel⟩
    cases line with
    | label other text =>
      obtain ⟨rfl, rfl⟩ := Prod.mk.inj (Option.some.inj hlabel)
      exact hline
    | instruction other content => simp [Line.label?] at hlabel
  · intro hline
    exact ⟨_, hline, rfl⟩

/-- A label line in front of others has the first label. -/
theorem filterMap_label?_cons_label (index : ℕ) (name : String) (lines : List Line) :
    (Line.label index name :: lines).filterMap Line.label?
      = (index, name) :: lines.filterMap Line.label? := rfl

/-- An instruction line in front of others has no label. -/
theorem filterMap_label?_cons_instruction (index : ℕ) (content : Instruction) (lines : List Line) :
    (Line.instruction index content :: lines).filterMap Line.label?
      = lines.filterMap Line.label? := rfl

/-- No label of a pass has a position below its start. -/
theorem le_of_mem_labels_interleave (f : ℕ → Option String) (instructions : List Instruction)
    (start : ℕ) (label : ℕ × String)
    (h : label ∈ (interleave f start instructions).filterMap Line.label?) : start ≤ label.1 :=
  le_position_of_mem_interleave f instructions start _ ((mem_filterMap_label?_iff _ _ _).mp h)

/-- The instruction lines of a pass are the instructions with their positions. -/
theorem instruction_mem_interleave_iff (f : ℕ → Option String) (instructions : List Instruction)
    (index : ℕ) (content : Instruction) :
    ∀ start, .instruction index content ∈ interleave f start instructions ↔
      ∃ k, index = start + k ∧ instructions[k]? = some content := by
  have hlabel : ∀ start, .instruction index content ∉ (labelLine? f start).toList := by
    intro start
    simp [labelLine?]
  induction instructions with
  | nil =>
    intro start
    rw [interleave, iff_false_intro (hlabel start)]
    simp
  | cons instruction rest ih =>
    intro start
    rw [interleave, List.mem_append, or_iff_right (hlabel start), List.mem_cons, ih (start + 1),
      Line.instruction.injEq]
    constructor
    · rintro (⟨rfl, rfl⟩ | ⟨k, rfl, hk⟩)
      · exact ⟨0, rfl, rfl⟩
      · exact ⟨k + 1, by omega, by simpa using hk⟩
    · rintro ⟨k, rfl, hk⟩
      cases k with
      | zero => exact Or.inl ⟨rfl, by simpa using hk.symm⟩
      | succ k => exact Or.inr ⟨k, by omega, by simpa using hk⟩

/-- The positions of the labels rise from top to bottom. -/
theorem pairwise_labels_interleave (f : ℕ → Option String) (instructions : List Instruction) :
    ∀ start, ((interleave f start instructions).filterMap Line.label?).Pairwise
      (fun a b => a.1 < b.1) := by
  induction instructions with
  | nil =>
    intro start
    unfold interleave labelLine?
    cases f start <;> simp [Line.label?]
  | cons instruction rest ih =>
    intro start
    have hlow := le_of_mem_labels_interleave f rest (start + 1)
    cases hlabel : f start with
    | none =>
      rw [interleave_cons_of_none f start _ rest hlabel, filterMap_label?_cons_instruction]
      exact ih (start + 1)
    | some name =>
      rw [interleave_cons_of_some f start _ rest name hlabel, filterMap_label?_cons_label,
        filterMap_label?_cons_instruction]
      exact List.pairwise_cons.mpr ⟨hlow, ih (start + 1)⟩

/-- No label line follows a label line. -/
theorem isChain_interleave (f : ℕ → Option String) (instructions : List Instruction) :
    ∀ start, (interleave f start instructions).IsChain (fun a b => a.isLabel → ¬ b.isLabel) := by
  induction instructions with
  | nil =>
    intro start
    unfold interleave labelLine?
    cases f start <;> simp
  | cons instruction rest ih =>
    intro start
    -- the instruction stands between the labels of its position and of the next
    have htail : (.instruction start instruction :: interleave f (start + 1) rest).IsChain
        (fun a b => a.isLabel → ¬ b.isLabel) :=
      List.isChain_cons.mpr ⟨by simp [Line.isLabel], ih (start + 1)⟩
    cases hlabel : f start with
    | none => rwa [interleave_cons_of_none f start _ rest hlabel]
    | some name =>
      rw [interleave_cons_of_some f start _ rest name hlabel]
      exact List.isChain_cons_cons.mpr ⟨by simp [Line.isLabel], htail⟩

/-! ## The places of lines -/

/-- A label of a pass stands below the instructions of lower positions and the labels above it. -/
theorem getElem?_interleave_of_label (f : ℕ → Option String) (instructions : List Instruction) :
    ∀ (start distance k : ℕ) (name : String),
      ((interleave f start instructions).filterMap Line.label?)[k]?
        = some (start + distance, name) →
      (interleave f start instructions)[distance + k]? = some (.label (start + distance) name) := by
  induction instructions with
  | nil =>
    intro start distance k name h
    unfold interleave labelLine? at h ⊢
    cases hlabel : f start with
    | none => simp [hlabel] at h
    | some other =>
      rw [hlabel] at h
      have h : [(start, other)][k]? = some (start + distance, name) := h
      obtain ⟨hk, heq⟩ := List.getElem?_eq_some_iff.mp h
      obtain rfl : k = 0 := by simpa using hk
      obtain ⟨hstart, rfl⟩ := Prod.mk.inj heq
      obtain rfl : distance = 0 := by omega
      rfl
  | cons instruction rest ih =>
    intro start distance k name h
    cases hlabel : f start with
    | none =>
      rw [interleave_cons_of_none f start _ rest hlabel] at h ⊢
      rw [filterMap_label?_cons_instruction] at h
      have hle := le_of_mem_labels_interleave f rest (start + 1) _ (List.mem_of_getElem? h)
      obtain ⟨further, rfl⟩ : ∃ further, distance = further + 1 := ⟨distance - 1, by omega⟩
      rw [show start + (further + 1) = start + 1 + further from by omega] at h ⊢
      rw [show further + 1 + k = further + k + 1 from by omega, List.getElem?_cons_succ]
      exact ih (start + 1) further k name h
    | some other =>
      rw [interleave_cons_of_some f start _ rest other hlabel] at h ⊢
      rw [filterMap_label?_cons_label, filterMap_label?_cons_instruction] at h
      cases k with
      | zero =>
        obtain ⟨hstart, rfl⟩ := Prod.mk.inj (Option.some.inj h)
        obtain rfl : distance = 0 := by omega
        rfl
      | succ k =>
        rw [List.getElem?_cons_succ] at h
        have hle := le_of_mem_labels_interleave f rest (start + 1) _ (List.mem_of_getElem? h)
        obtain ⟨further, rfl⟩ : ∃ further, distance = further + 1 := ⟨distance - 1, by omega⟩
        rw [show start + (further + 1) = start + 1 + further from by omega] at h ⊢
        rw [show further + 1 + (k + 1) = further + k + 1 + 1 from by omega,
          List.getElem?_cons_succ, List.getElem?_cons_succ]
        exact ih (start + 1) further k name h

/-- An instruction of a pass stands below the instructions of lower positions and the labels up to
its own position. -/
theorem getElem?_interleave_of_instruction (f : ℕ → Option String)
    (instructions : List Instruction) :
    ∀ (start i : ℕ) (content : Instruction), instructions[i]? = some content →
      (interleave f start instructions)[i + ((interleave f start instructions).filterMap
          Line.label?).countP (fun label => label.1 ≤ start + i)]?
        = some (.instruction (start + i) content) := by
  induction instructions with
  | nil => simp
  | cons instruction rest ih =>
    intro start i content h
    -- how many labels of the rest count
    cases i with
    | zero =>
      obtain rfl : instruction = content := by simpa using h
      have hlow : ((interleave f (start + 1) rest).filterMap Line.label?).countP
          (fun label => label.1 ≤ start + 0) = 0 := by
        rw [List.countP_eq_zero]
        intro label hmem
        have := le_of_mem_labels_interleave f rest (start + 1) label hmem
        simp only [decide_eq_true_eq]
        omega
      cases hlabel : f start with
      | none =>
        rw [interleave_cons_of_none f start _ rest hlabel, filterMap_label?_cons_instruction, hlow]
        rfl
      | some name =>
        rw [interleave_cons_of_some f start _ rest name hlabel,
          filterMap_label?_cons_label, filterMap_label?_cons_instruction,
          List.countP_cons_of_pos (by simp), hlow]
        rfl
    | succ i =>
      have hrest := ih (start + 1) i content (by simpa using h)
      rw [show start + 1 + i = start + (i + 1) from by omega] at hrest
      cases hlabel : f start with
      | none =>
        rw [interleave_cons_of_none f start _ rest hlabel, filterMap_label?_cons_instruction,
          Nat.add_right_comm, List.getElem?_cons_succ]
        exact hrest
      | some name =>
        rw [interleave_cons_of_some f start _ rest name hlabel,
          filterMap_label?_cons_label, filterMap_label?_cons_instruction,
          List.countP_cons_of_pos (by simp), ← Nat.add_assoc, Nat.add_right_comm i 1,
          List.getElem?_cons_succ, List.getElem?_cons_succ]
        exact hrest

/-- A pass has a line for each instruction and one for each label. -/
theorem length_interleave (f : ℕ → Option String) (instructions : List Instruction) :
    ∀ start, (interleave f start instructions).length = instructions.length
      + ((interleave f start instructions).filterMap Line.label?).length := by
  induction instructions with
  | nil =>
    intro start
    unfold interleave labelLine?
    cases f start <;> rfl
  | cons instruction rest ih =>
    intro start
    cases hlabel : f start with
    | none =>
      rw [interleave_cons_of_none f start _ rest hlabel, filterMap_label?_cons_instruction,
        List.length_cons, ih (start + 1), List.length_cons]
      omega
    | some name =>
      rw [interleave_cons_of_some f start _ rest name hlabel,
        filterMap_label?_cons_label, filterMap_label?_cons_instruction,
        List.length_cons, List.length_cons, ih (start + 1), List.length_cons, List.length_cons]
      omega

end MipsListing
