/-
# Joining programs

Position and size matter to a word only if it branches, and then only by how far the ends of the
program are away.  So a program keeps its instructions when another one is joined to it, the other
one has its instructions moved as a whole, and the labels of both are found at the places to which
both branch.  A program that is refused is refused as before, unless it is for a branch behind its
end.

* `Instruction.ofWord_of_size_le` : a word in a longer program;
* `Instruction.exists_moved` : a word further down;
* `Listing.Shows` : what a listing shows of its instructions;
* `Listing.ofProgram_append` : the listing of two programs that have listings;
* `Listing.ofProgram_append_verdict` : what remains of the outcome of the first program.
-/
import MipsListing.Proofs.Safety

namespace MipsListing

/-! ## A word in a longer program -/

/-- A branch leads to the same place in a longer program, unless it leads behind the end of the
shorter one. -/
theorem branchDestination_of_size_le (index : ℕ) (offset : ℤ) (size longer : ℕ)
    (hle : size ≤ longer)
    (hend : ∀ target, branchDestination index offset size = .error (.branchOutOfRange target) →
      target ≤ size) :
    branchDestination index offset longer = branchDestination index offset size := by
  unfold branchDestination at hend ⊢
  by_cases hin : 0 ≤ twosComplement index 64 + 1 + offset ∧
      twosComplement index 64 + 1 + offset ≤ size
  · rw [if_pos hin, if_pos ⟨hin.1, by omega⟩]
  · -- the destination is not behind the end, so it lies before the start
    have hle := hend _ (if_neg hin)
    rw [if_neg hin, if_neg (by omega)]

namespace Instruction

/-- **A word in a longer program** is decoded, or refused, as in the shorter one, unless it is
refused there for a branch behind the end. -/
theorem ofWord_of_size_le (word : Word) (index size longer : ℕ) (hle : size ≤ longer)
    (hend : ∀ target, ofWord word index size = .error (.branchOutOfRange target) →
      target ≤ size) :
    ofWord word index longer = ofWord word index size := by
  cases hop : word.operation with
  | error cause =>
    rw [ofWord_of_error word index longer cause hop, ofWord_of_error word index size cause hop]
  | ok operation =>
    cases hb : operation.isBranch with
    | false =>
      rw [ofWord_of_plain word index longer operation hop hb,
        ofWord_of_plain word index size operation hop hb]
    | true =>
      have hdest : branchDestination index word.offset longer
          = branchDestination index word.offset size := by
        apply branchDestination_of_size_le index word.offset size longer hle
        intro target herror
        apply hend
        rw [ofWord_of_branch word index size operation hop hb, herror]
        rfl
      rw [ofWord_of_branch word index longer operation hop hb,
        ofWord_of_branch word index size operation hop hb, hdest]

/-- An instruction is kept in a longer program. -/
theorem ofWord_of_size_le_of_ok (word : Word) (index size longer : ℕ) (hle : size ≤ longer)
    (instruction : Instruction) (h : ofWord word index size = .ok instruction) :
    ofWord word index longer = .ok instruction := by
  rw [ofWord_of_size_le word index size longer hle (by simp [h]), h]

/-! ## A word further down -/

/-- One instruction is another one moved down by a distance.  They differ only in the place to
which they branch and in its name, which is the last operand. -/
structure MovedBy (distance : ℕ) (before after : Instruction) : Prop where
  operation_eq : after.operation = before.operation
  format_eq : after.format = before.format
  target_eq : after.target = before.target.map (· + distance)
  text_of_none : before.target = none → after.text = before.text
  text_of_some : ∀ target, before.target = some target → ∃ operands name moved,
    labelName target = .ok name ∧ labelName (target + distance) = .ok moved ∧
    before.text = instructionText before.operation.mnemonic (operands ++ [name]) ∧
    after.text = instructionText before.operation.mnemonic (operands ++ [moved])

/-- **A word further down** is decoded to the same instruction, moved down. -/
theorem exists_moved (word : Word) (index size : ℕ) (instruction : Instruction)
    (h : ofWord word index size = .ok instruction) (distance longer : ℕ)
    (hlonger : size + distance ≤ longer) (hsmall : index + distance < 0x8000000000000000)
    (hname : ∀ target, instruction.target = some target → target + distance ≤ 0x3FFF) :
    ∃ moved, ofWord word (index + distance) longer = .ok moved ∧
      instruction.MovedBy distance moved := by
  have hfrom := decodedFrom_of_ofWord word index size instruction h
  cases hb : instruction.operation.isBranch with
  | false =>
    have hnone := hfrom.target_of_plain hb
    have hplain := ofWord_of_plain word index size _ hfrom.operation_eq hb
    have hsame : ofWord word (index + distance) longer = .ok instruction := by
      rw [ofWord_of_plain word _ _ _ hfrom.operation_eq hb, ← hplain, h]
    refine ⟨instruction, hsame, rfl, rfl, by simp [hnone], fun _ => rfl, ?_⟩
    intro target ht
    simp [hnone] at ht
  | true =>
    obtain ⟨target, ht, hle, hdest⟩ := hfrom.target_of_branch hb
    -- position and destination move by the same distance, so the offset still fits
    have hmoved : branchDestination (index + distance) word.offset longer
        = .ok (target + distance) := by
      rw [branchDestination_eq_ok_iff] at hdest ⊢
      rw [twosComplement_of_small index (by omega)] at hdest
      rw [twosComplement_of_small (index + distance) hsmall]
      omega
    have hword := ofWord_of_branch word (index + distance) longer _ hfrom.operation_eq hb
    rw [hmoved] at hword
    simp only [bind, Except.bind, labelName_of_le _ (hname target ht)] at hword
    refine ⟨_, hword, rfl, hfrom.format_eq.symm, by simp [ht], by simp [ht], ?_⟩
    intro other hother
    obtain rfl : target = other := Option.some.inj (ht.symm.trans hother)
    refine ⟨[(word.register .rs).name, (word.register .rt).name], _, _,
      labelName_of_le target hle, labelName_of_le _ (hname target ht),
      hfrom.text_eq_of_target target ht, ?_⟩
    rw [(instruction.operation.layout_of_branch hb).2]
    rfl

end Instruction

/-! ## What a listing shows -/

/-- The instruction of a line with its position. -/
def Line.instruction? : Line → Option (Instruction × ℕ)
  | label .. => none
  | instruction index content => some (content, index)

/-- The instructions of a listing with their positions, from top to bottom. -/
def Listing.instructions (listing : Listing) : List (Instruction × ℕ) :=
  listing.lines.filterMap Line.instruction?

/-- The instructions of a pass are numbered from its start on. -/
theorem instructions_interleave (f : ℕ → Option String) (instructions : List Instruction) :
    ∀ start, (interleave f start instructions).filterMap Line.instruction?
      = instructions.zipIdx start := by
  have hlabel : ∀ start, (labelLine? f start).toList.filterMap Line.instruction? = [] := by
    intro start
    unfold labelLine?
    cases f start with
    | none => rfl
    | some name => rfl
  induction instructions with
  | nil =>
    intro start
    rw [interleave, hlabel]
    rfl
  | cons instruction rest ih =>
    intro start
    have hline : (Line.instruction start instruction).instruction? = some (instruction, start) :=
      rfl
    rw [interleave, List.filterMap_append, hlabel, List.nil_append,
      List.filterMap_cons_some hline, ih (start + 1), List.zipIdx_cons]

namespace Listing

/-- A listing shows instructions: they are numbered from top to bottom, and there is one label for
each place to which they branch. -/
structure Shows (listing : Listing) (instructions : List Instruction) : Prop where
  instructions_eq : listing.instructions = instructions.zipIdx
  mem_labels_iff : ∀ index, index ∈ listing.labels.map Prod.fst ↔
    ∃ instruction ∈ instructions, instruction.target = some index
  nodup_labels : (listing.labels.map Prod.fst).Nodup

/-- The interleaving of instructions and their labels shows the instructions, if none of them
branches behind the end. -/
theorem shows_interleave (instructions : List Instruction)
    (hend : ∀ instruction ∈ instructions, ∀ target,
      instruction.target = some target → target ≤ instructions.length) :
    Shows { lines := interleave (calledLabel? instructions) 0 instructions } instructions where
  instructions_eq := instructions_interleave _ instructions 0
  mem_labels_iff := by
    intro index
    unfold labels
    rw [List.mem_map]
    constructor
    · rintro ⟨⟨_, name⟩, hmem, rfl⟩
      have hline := (mem_filterMap_label?_iff _ _ name).mp hmem
      exact (eq_labelText_of_label_mem instructions _ name hline).1
    · rintro ⟨instruction, hmem, htarget⟩
      have hcalled : calledLabel? instructions index = some (labelText index) :=
        (calledLabel?_eq_some_iff _ _ _).mpr ⟨⟨instruction, hmem, htarget⟩, rfl⟩
      have hline := (label_mem_interleave_iff _ instructions index (labelText index)
        (hend instruction hmem index htarget)).mpr hcalled
      exact ⟨(index, labelText index), (mem_filterMap_label?_iff _ _ _).mpr hline, rfl⟩
  nodup_labels := by
    unfold labels
    rw [List.Nodup, List.pairwise_map]
    exact (pairwise_labels_interleave _ instructions 0).imp fun hlt => hlt.ne

/-- The listing of a program whose words are decoded shows the instructions. -/
theorem exists_shows_of_decodes (program : List Word) (instructions : List Instruction)
    (hdecodes : Decodes Instruction.ofWord program instructions) :
    ∃ listing, ofProgram program = .ok listing ∧ listing.Shows instructions := by
  refine ⟨_, ofProgram_of_decodes program instructions hdecodes, shows_interleave instructions ?_⟩
  rw [hdecodes.length_eq]
  exact hdecodes.target_le

/-- A listing of a program shows its instructions. -/
theorem exists_shows_of_ofProgram (program : List Word) (listing : Listing)
    (h : ofProgram program = .ok listing) :
    ∃ instructions, Decodes Instruction.ofWord program instructions ∧
      listing.Shows instructions := by
  obtain ⟨instructions, hdecodes⟩ := exists_decodes_of_ok Instruction.ofWord program listing h
  obtain ⟨other, hother, hshows⟩ := exists_shows_of_decodes program instructions hdecodes
  obtain rfl := Except.ok.inj (h.symm.trans hother)
  exact ⟨instructions, hdecodes, hshows⟩

end Listing

/-! ## The first of two programs -/

section Append

variable {p q : List Word} {xs ys zs : List Instruction}

/-- The words of the first program are accepted in the joined one if they are in their own. -/
theorem Instruction.accepts_append (i : ℕ) (hi : i < p.length) (hi' : i < (p ++ q).length)
    (h : Decoder.Accepts Instruction.ofWord p.length p[i] i) :
    Decoder.Accepts Instruction.ofWord (p ++ q).length (p ++ q)[i] i := by
  obtain ⟨instruction, hword, hname⟩ := h
  rw [List.getElem_append_left hi]
  exact ⟨instruction, Instruction.ofWord_of_size_le_of_ok _ i _ _ (by simp) _ hword, hname⟩

/-- The instructions of the joined program begin with those of the first. -/
theorem Decodes.take_append (hp : Decodes Instruction.ofWord p xs)
    (hjoined : Decodes Instruction.ofWord (p ++ q) zs) : zs.take p.length = xs := by
  have hlength := hjoined.length_eq
  rw [List.length_append] at hlength
  apply List.ext_getElem
  · rw [List.length_take, hp.length_eq]
    omega
  · intro i hi hix
    have hip : i < p.length := by rwa [← hp.length_eq]
    have hword := hjoined.decoded i (by simp; omega) (by omega)
    rw [List.getElem_append_left hip,
      Instruction.ofWord_of_size_le_of_ok _ i _ _ (by simp) _ (hp.decoded i hip hix)] at hword
    rw [List.getElem_take]
    exact (Except.ok.inj hword).symm

/-- The numbered instructions of the joined program begin with those of the first. -/
theorem Decodes.zipIdx_append (hp : Decodes Instruction.ofWord p xs)
    (hjoined : Decodes Instruction.ofWord (p ++ q) zs) :
    zs.zipIdx = xs.zipIdx ++ (zs.drop p.length).zipIdx p.length := by
  have hsplit : zs = xs ++ zs.drop p.length := by
    rw [← hp.take_append hjoined, List.take_append_drop]
  conv_lhs => rw [hsplit]
  rw [List.zipIdx_append, Nat.zero_add, hp.length_eq]

/-! ## The second of two programs -/

/-- What the words of the second program are decoded to in the joined one. -/
theorem Decodes.exists_moved (hq : Decodes Instruction.ofWord q ys)
    (hsize : p.length + q.length ≤ 0x7FFFFFFFFFFFFFFF / 4)
    (hnames : ∀ instruction ∈ ys, ∀ target, instruction.target = some target →
      p.length + target ≤ 0x3FFF)
    (i : ℕ) (hi : i < q.length) (hi' : i < ys.length) :
    ∃ moved, Instruction.ofWord q[i] (i + p.length) (p ++ q).length = .ok moved ∧
      ys[i].MovedBy p.length moved := by
  refine Instruction.exists_moved _ i q.length ys[i] (hq.decoded i hi hi') p.length _ ?_ ?_ ?_
  · rw [List.length_append]
    omega
  · omega
  · intro target htarget
    have := hnames _ (List.getElem_mem hi') target htarget
    omega

/-- The words of two programs are accepted in the joined one, if the places to which the second
branches have names there. -/
theorem Decodes.accepts_append (hp : Decodes Instruction.ofWord p xs)
    (hq : Decodes Instruction.ofWord q ys)
    (hsize : p.length + q.length ≤ 0x7FFFFFFFFFFFFFFF / 4)
    (hnames : ∀ instruction ∈ ys, ∀ target, instruction.target = some target →
      p.length + target ≤ 0x3FFF)
    (i : ℕ) (hi : i < (p ++ q).length) :
    Decoder.Accepts Instruction.ofWord (p ++ q).length (p ++ q)[i] i := by
  by_cases hip : i < p.length
  · exact Instruction.accepts_append i hip hi (hp.accepts i hip)
  · obtain ⟨k, rfl⟩ : ∃ k, i = k + p.length := ⟨i - p.length, by omega⟩
    have hk : k < q.length := by
      rw [List.length_append] at hi
      omega
    obtain ⟨moved, hword, -⟩ := hq.exists_moved hsize hnames k hk (by rwa [hq.length_eq])
    rw [List.getElem_append_right (by omega)]
    simp only [Nat.add_sub_cancel]
    exact ⟨moved, hword, Instruction.nameable_of_ofWord _ _ _ _ hword⟩

/-- The instructions of the joined program end with those of the second, moved down. -/
theorem Decodes.drop_append (hq : Decodes Instruction.ofWord q ys)
    (hjoined : Decodes Instruction.ofWord (p ++ q) zs)
    (hsize : p.length + q.length ≤ 0x7FFFFFFFFFFFFFFF / 4)
    (hnames : ∀ instruction ∈ ys, ∀ target, instruction.target = some target →
      p.length + target ≤ 0x3FFF) :
    List.Forall₂ (Instruction.MovedBy p.length) ys (zs.drop p.length) := by
  have hlength := hjoined.length_eq
  rw [List.length_append] at hlength
  rw [List.forall₂_iff_get]
  refine ⟨by rw [List.length_drop, hlength, hq.length_eq]; omega, ?_⟩
  intro i hiy hiz
  have hi : i < q.length := by rwa [← hq.length_eq]
  obtain ⟨moved, hword, hmoved⟩ := hq.exists_moved hsize hnames i hi hiy
  have hdecoded := hjoined.decoded (p.length + i) (by rw [List.length_append]; omega) (by omega)
  rw [List.getElem_append_right (by omega)] at hdecoded
  simp only [Nat.add_sub_cancel_left] at hdecoded
  rw [Nat.add_comm i p.length] at hword
  simp only [List.get_eq_getElem, List.getElem_drop]
  rwa [← Except.ok.inj (hword.symm.trans hdecoded)]

end Append

/-- Instructions that are moved down are numbered further down. -/
theorem forall₂_zipIdx (distance : ℕ) (xs ys : List Instruction)
    (h : List.Forall₂ (Instruction.MovedBy distance) xs ys) :
    ∀ start, List.Forall₂ (fun a b => a.1.MovedBy distance b.1 ∧ b.2 = a.2 + distance)
      (xs.zipIdx start) (ys.zipIdx (start + distance)) := by
  induction h with
  | nil => intro start; exact .nil
  | cons hmoved _ ih =>
    intro start
    rw [List.zipIdx_cons, List.zipIdx_cons]
    refine .cons ⟨hmoved, rfl⟩ ?_
    rw [show start + distance + 1 = start + 1 + distance from by omega]
    exact ih (start + 1)

/-- Instructions that are moved down branch further down. -/
theorem exists_target_iff_of_moved (distance : ℕ) (xs ys : List Instruction)
    (h : List.Forall₂ (Instruction.MovedBy distance) xs ys) (index : ℕ) :
    (∃ instruction ∈ ys, instruction.target = some index) ↔
      ∃ target, (∃ instruction ∈ xs, instruction.target = some target) ∧
        index = target + distance := by
  induction h with
  | nil => simp
  | @cons before after _ _ hmoved _ ih =>
    have hhead : after.target = some index ↔
        ∃ target, before.target = some target ∧ index = target + distance := by
      rw [hmoved.target_eq, Option.map_eq_some_iff]
      simp only [eq_comm]
    rw [List.exists_mem_cons_iff, hhead, ih]
    simp only [List.exists_mem_cons_iff, or_and_right, exists_or]

namespace Listing

/-! ## Joined programs -/

/-- **The listing of two programs joined.**  Let two programs have listings, and let the places of
the second that are labelled have names also behind the first.  Then the joined program has a
listing.  Its instructions are those of the first, unchanged, and behind them those of the second,
moved down by the length of the first.  The labelled positions are those of the first and those of
the second, moved down, with one label for each. -/
theorem ofProgram_append (p q : List Word)
    (hsize : p.length + q.length ≤ 0x7FFFFFFFFFFFFFFF / 4) (listing other : Listing)
    (hp : ofProgram p = .ok listing) (hq : ofProgram q = .ok other)
    (hnames : ∀ label ∈ other.labels, p.length + label.1 ≤ 0x3FFF) :
    ∃ joined, ofProgram (p ++ q) = .ok joined ∧
      (∃ moved, joined.instructions = listing.instructions ++ moved ∧
        List.Forall₂ (fun a b => a.1.MovedBy p.length b.1 ∧ b.2 = a.2 + p.length)
          other.instructions moved) ∧
      (∀ index, index ∈ joined.labels.map Prod.fst ↔
        index ∈ listing.labels.map Prod.fst ∨
          ∃ target ∈ other.labels.map Prod.fst, index = target + p.length) ∧
      (joined.labels.map Prod.fst).Nodup := by
  obtain ⟨xs, hxs, hshowsp⟩ := exists_shows_of_ofProgram p listing hp
  obtain ⟨ys, hys, hshowsq⟩ := exists_shows_of_ofProgram q other hq
  have htargets : ∀ instruction ∈ ys, ∀ target, instruction.target = some target →
      p.length + target ≤ 0x3FFF := by
    intro instruction hmem target htarget
    have hlabelled := (hshowsq.mem_labels_iff target).mpr ⟨instruction, hmem, htarget⟩
    obtain ⟨label, hlabel, rfl⟩ := List.mem_map.mp hlabelled
    exact hnames label hlabel
  obtain ⟨-, zs, -, -, hzs⟩ := Decoding.ofProgram_of_accepts Instruction.ofWord (p ++ q)
    (hxs.accepts_append hys hsize htargets)
  obtain ⟨joined, hjoined, hshows⟩ := exists_shows_of_decodes (p ++ q) zs hzs
  have hmoved := hys.drop_append hzs hsize htargets
  refine ⟨joined, hjoined, ⟨(zs.drop p.length).zipIdx p.length, ?_, ?_⟩, ?_,
    hshows.nodup_labels⟩
  · rw [hshows.instructions_eq, hshowsp.instructions_eq, hxs.zipIdx_append hzs]
  · rw [hshowsq.instructions_eq]
    simpa using forall₂_zipIdx p.length ys _ hmoved 0
  · intro index
    rw [hshows.mem_labels_iff, hshowsp.mem_labels_iff]
    simp only [hshowsq.mem_labels_iff]
    rw [← exists_target_iff_of_moved p.length ys _ hmoved, ← hxs.take_append hzs]
    -- an instruction is among the first ones or among the others
    conv_lhs => rw [← List.take_append_drop p.length zs]
    simp only [List.mem_append, or_and_right, exists_or]

/-- A branch to the end of the first program and a branch to the start of the second: in the joined
program both lead to the same place, which has one label. -/
theorem ofProgram_append_of_branches :
    let p : List Word := [0x10000000]
    let q : List Word := [0x1000FFFF]
    let listing : Listing := { lines :=
      [.instruction 0 ⟨.beq, .immediate, "beq $zero, $zero, Addr_0004", some 1⟩,
       .label 1 "Addr_0004"] }
    let other : Listing := { lines :=
      [.label 0 "Addr_0000",
       .instruction 0 ⟨.beq, .immediate, "beq $zero, $zero, Addr_0000", some 0⟩] }
    ofProgram p = .ok listing ∧ ofProgram q = .ok other ∧
      ∃ joined, ofProgram (p ++ q) = .ok joined ∧
        (∃ moved, joined.instructions = listing.instructions ++ moved ∧
          List.Forall₂ (fun a b => a.1.MovedBy 1 b.1 ∧ b.2 = a.2 + 1) other.instructions moved) ∧
        (∀ index, index ∈ joined.labels.map Prod.fst ↔ index = 1) ∧
        (joined.labels.map Prod.fst).Nodup := by
  intro p q listing other
  have hp : ofProgram p = .ok listing := by decide
  have hq : ofProgram q = .ok other := by decide
  have hnames : ∀ label ∈ other.labels, p.length + label.1 ≤ 0x3FFF := by decide
  obtain ⟨joined, hjoined, hinstructions, hlabels, hnodup⟩ :=
    ofProgram_append p q (by decide) listing other hp hq hnames
  refine ⟨hp, hq, joined, hjoined, hinstructions, fun index => ?_, hnodup⟩
  have hfirst : listing.labels.map Prod.fst = [1] := rfl
  have hsecond : other.labels.map Prod.fst = [0] := rfl
  have hlength : p.length = 1 := rfl
  rw [hlabels, hfirst, hsecond, hlength]
  simp

/-! ## What remains of an outcome -/

/-- A listing is continued, or a line behind it is refused. -/
theorem ofProgram_append_of_ok (p q : List Word) (listing : Listing)
    (hp : ofProgram p = .ok listing) :
    (∃ error, ofProgram (p ++ q) = .error (.atLine error) ∧ p.length < error.line) ∨
    ∃ joined, ofProgram (p ++ q) = .ok joined ∧
      joined.instructions.take p.length = listing.instructions ∧
      ∀ index ∈ listing.labels.map Prod.fst, index ∈ joined.labels.map Prod.fst := by
  obtain ⟨xs, hxs, hshowsp⟩ := exists_shows_of_ofProgram p listing hp
  rcases Decoding.decodes_or_refuses Instruction.ofWord (p ++ q)
    with ⟨zs, hzs⟩ | ⟨i, hi, cause, hrefuses, hbefore⟩
  · obtain ⟨joined, hjoined, hshows⟩ := exists_shows_of_decodes (p ++ q) zs hzs
    refine Or.inr ⟨joined, hjoined, ?_, ?_⟩
    · rw [hshows.instructions_eq, hshowsp.instructions_eq, hxs.zipIdx_append hzs]
      exact List.take_left' (by rw [List.length_zipIdx, hxs.length_eq])
    · intro index hindex
      obtain ⟨instruction, hmem, htarget⟩ := (hshowsp.mem_labels_iff index).mp hindex
      rw [← hxs.take_append hzs] at hmem
      exact (hshows.mem_labels_iff index).mpr ⟨instruction, List.mem_of_mem_take hmem, htarget⟩
  · -- the words of the first program are accepted, so the refused one lies behind them
    have hbehind : ¬ i < p.length := by
      intro hip
      have haccepts := Instruction.accepts_append (q := q) i hip hi (hxs.accepts i hip)
      exact (Decoder.accepts_iff_not_refuses _).mp haccepts cause hrefuses
    refine Or.inl ⟨_, ofProgramBy_of_refused _ (p ++ q) i hi cause hrefuses hbefore, ?_⟩
    show p.length < i + 1
    omega

/-- A refusal stands, unless it is for a branch behind the end. -/
theorem ofProgram_append_of_error (p q : List Word) (error : LineRefusal)
    (hp : ofProgram p = .error (.atLine error))
    (hend : ∀ target, error.cause = .branchOutOfRange target → target ≤ p.length) :
    ofProgram (p ++ q) = .error (.atLine error) := by
  obtain ⟨i, hi, cause, rfl, hrefuses, hbefore⟩ := (ofProgramBy_eq_atLine_iff _ p error).mp hp
  have hi' : i < (p ++ q).length := by
    rw [List.length_append]
    omega
  have hword := (Instruction.refuses_ofWord_iff _ _ _ _).mp hrefuses
  have hlonger : Instruction.ofWord (p ++ q)[i] i (p ++ q).length = .error cause := by
    rw [List.getElem_append_left hi, Instruction.ofWord_of_size_le _ i p.length _ (by simp), hword]
    intro target htarget
    rw [hword] at htarget
    exact hend target (Except.error.inj htarget)
  have hjoined := ofProgramBy_of_refused Instruction.ofWord (p ++ q) i hi' cause
    (.undecoded cause hlonger)
    (fun j hj hlt => Instruction.accepts_append j (by omega) hj (hbefore j (by omega) hlt))
  rw [List.getElem_append_left hi] at hjoined
  exact hjoined

/-- **What remains of an outcome** when a program is joined to another one.  If the first has a
listing, then in the joined program a line behind the first is refused, or there is a listing that
begins with the same instructions and has at least the same labelled positions.  If the first is
refused, the joined program is refused for the same line, word and cause, unless the cause is a
branch behind the end of the first. -/
theorem ofProgram_append_verdict (p q : List Word) :
    (∀ listing, ofProgram p = .ok listing →
      (∃ error, ofProgram (p ++ q) = .error (.atLine error) ∧ p.length < error.line) ∨
      ∃ joined, ofProgram (p ++ q) = .ok joined ∧
        joined.instructions.take p.length = listing.instructions ∧
        ∀ index ∈ listing.labels.map Prod.fst, index ∈ joined.labels.map Prod.fst) ∧
    ∀ error, ofProgram p = .error (.atLine error) →
      (∀ target, error.cause = .branchOutOfRange target → target ≤ p.length) →
      ofProgram (p ++ q) = .error (.atLine error) :=
  ⟨ofProgram_append_of_ok p q, ofProgram_append_of_error p q⟩

/-- Behind a branch to the end of its program, a word that is refused: the refusal lies behind the
program.  Behind a word that is refused, a branch: the refusal stands, though the joined program is
longer. -/
theorem ofProgram_append_verdict_of_stray :
    (∃ error, ofProgram ([0x10000000] ++ [0x04000000]) = .error (.atLine error) ∧
      1 < error.line) ∧
    ofProgram ([0x1000FFFE] ++ [0x10000000])
      = .error (.atLine (refusalAt 0x1000FFFE 0 (.branchOutOfRange (-1)))) := by
  constructor
  · have hp : ofProgram [0x10000000] = .ok { lines :=
        [.instruction 0 ⟨.beq, .immediate, "beq $zero, $zero, Addr_0004", some 1⟩,
         .label 1 "Addr_0004"] } := by decide
    rcases (ofProgram_append_verdict [0x10000000] [0x04000000]).1 _ hp
      with hrefused | ⟨joined, hjoined, -⟩
    · exact hrefused
    · have hfails : (ofProgram ([0x10000000] ++ [0x04000000])).isOk = false := by decide
      rw [hjoined] at hfails
      simp [Except.isOk, Except.toBool] at hfails
  · refine (ofProgram_append_verdict [0x1000FFFE] [0x10000000]).2 _ (by decide) ?_
    intro target htarget
    obtain rfl : -1 = target := Refusal.branchOutOfRange.inj htarget
    decide

end Listing

end MipsListing
