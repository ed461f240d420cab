/-
# What a listing shows of a program

The text of an instruction shows all bits of its word but those of one field, and of some words
all bits.  Two programs have the same listing, under any indentation, exactly if their words agree
in the bits that are shown.

* `Word.shown` : a word with the bits that its text does not show set to zero;
* `Word.shown_eq_shown_iff` : the fields that words with the same shown bits have in common;
* `Listing.render_eq_render_iff` : which programs look the same.
-/
import MipsListing.Proofs.AssemblyText

namespace MipsListing

/-! ## Shown bits -/

/-- The field of its words that the text of an operation does not show. -/
def Operation.hidden? : Operation → Option BitRange
  | .add | .addu | .and | .nor | .or | .slt | .sltu | .sub | .subu => some .shamt
  | .sll | .srl | .lui => some .rs
  | _ => none

/-- A word with the bits that its text does not show set to zero. -/
def Word.shown (word : Word) : Word :=
  match word.operation with
  | .error _ => word
  | .ok operation =>
    match operation.hidden? with
    | none => word
    | some range => word.clear range

/-- The fields that select the operations of a format. -/
def Format.selectors : Format → List BitRange
  | .register => [.opcode, .funct]
  | .immediate => [.opcode]

/-- What is hidden lies beside every field that is shown or selects the operation. -/
theorem Operation.beside_hidden (operation : Operation) :
    ∀ hidden ∈ operation.hidden?, ∀ range ∈ [.opcode, .funct] ++ operation.layout.fields,
      range.stop ≤ hidden.start ∨ hidden.stop ≤ range.start := by
  cases operation <;> decide

/-- Every bit is hidden, shown, or selects the operation. -/
theorem Operation.cover (operation : Operation) :
    ∀ i, i < 32 → (∃ hidden ∈ operation.hidden?, hidden.start ≤ i ∧ i < hidden.stop) ∨
      ∃ range ∈ operation.format.selectors ++ operation.layout.fields,
        range.start ≤ i ∧ i < range.stop := by
  cases operation <;> decide

namespace Word

/-- The fields that select an operation, and those that its text shows, are shown bits. -/
theorem field_shown (word : Word) (range : BitRange)
    (h : ∀ operation, word.operation = .ok operation →
      range ∈ [.opcode, .funct] ++ operation.layout.fields) :
    word.shown.field range = word.field range := by
  unfold shown
  split
  · rfl
  · rename_i operation hop
    split
    · rfl
    · rename_i hidden hhidden
      exact field_clear word hidden range
        (operation.beside_hidden hidden hhidden range (h operation hop))

/-- Words with the same shown bits select the same operation. -/
theorem operation_eq_of_shown_eq (a b : Word) (h : a.shown = b.shown) :
    a.operation = b.operation := by
  have hfield : ∀ range ∈ ([.opcode, .funct] : List BitRange), a.field range = b.field range := by
    intro range hmem
    rw [← field_shown a range (fun _ _ => List.mem_append_left _ hmem),
      ← field_shown b range (fun _ _ => List.mem_append_left _ hmem), h]
  have hopcode : a.opcode = b.opcode := by
    unfold opcode
    rw [hfield .opcode (by simp)]
  have hfunct : a.funct = b.funct := by
    show UInt8.ofNat (a.field .funct) = UInt8.ofNat (b.field .funct)
    rw [hfield .funct (by simp)]
  unfold operation
  rw [hopcode, hfunct]

/-- Words that select the same operation agree in the fields that select it. -/
theorem selectors_eq_of_operation_eq (a b : Word) (operation : Operation)
    (ha : a.operation = .ok operation) (hb : b.operation = .ok operation) :
    ∀ range ∈ operation.format.selectors, a.field range = b.field range := by
  have hbyte : ∀ range : BitRange, range.size ≤ 8 →
      UInt8.ofNat (a.field range) = UInt8.ofNat (b.field range) →
        a.field range = b.field range := by
    intro range hsize heq
    rw [← toNat_ofNat_field a range hsize, heq, toNat_ofNat_field b range hsize]
  rw [operation_eq_ok_iff] at ha hb
  cases hformat : operation.format with
  | register =>
    simp only [hformat] at ha hb
    have hopcode := hbyte .opcode (by decide) (ha.1.trans hb.1.symm)
    have hfunct := hbyte .funct (by decide) (ha.2.symm.trans hb.2)
    simp [Format.selectors, hopcode, hfunct]
  | immediate =>
    simp only [hformat] at ha hb
    have hopcode := hbyte .opcode (by decide) (ha.symm.trans hb)
    simp [Format.selectors, hopcode]

/-- **Shown bits are shown fields**: words that select the same operation have the same shown
bits exactly if they agree in the fields that its text shows. -/
theorem shown_eq_shown_iff (a b : Word) (operation : Operation)
    (ha : a.operation = .ok operation) (hb : b.operation = .ok operation) :
    a.shown = b.shown ↔ ∀ range ∈ operation.layout.fields, a.field range = b.field range := by
  constructor
  · intro h range hmem
    have hin : ∀ word : Word, word.operation = .ok operation → ∀ other,
        word.operation = .ok other → range ∈ [.opcode, .funct] ++ other.layout.fields := by
      intro word hword other hother
      obtain rfl := Except.ok.inj (hword.symm.trans hother)
      exact List.mem_append_right _ hmem
    rw [← field_shown a range (hin a ha), ← field_shown b range (hin b hb), h]
  · intro h
    have hfields : ∀ range ∈ operation.format.selectors ++ operation.layout.fields,
        a.field range = b.field range := by
      intro range hmem
      rcases List.mem_append.mp hmem with hmem | hmem
      · exact selectors_eq_of_operation_eq a b operation ha hb range hmem
      · exact h range hmem
    -- the selecting fields and the shown ones leave no bit but those that are cleared
    have hcover := operation.cover
    simp only [shown, ha, hb]
    cases hhidden : operation.hidden? with
    | none =>
      simp only [hhidden, Option.mem_def, reduceCtorEq, false_and, exists_false, false_or] at hcover
      exact eq_of_cover a b _ hcover hfields
    | some hidden =>
      simp only [hhidden, Option.mem_def, Option.some.injEq, exists_eq_left'] at hcover
      exact clear_eq_clear_of_cover a b hidden _ hcover hfields

end Word

/-! ## Shown bits and texts -/

namespace Instruction

/-- Words with the same shown bits decode alike. -/
theorem ofWord_eq_of_shown_eq (a b : Word) (index size : ℕ) (h : a.shown = b.shown) :
    ofWord a index size = ofWord b index size := by
  have hop := Word.operation_eq_of_shown_eq a b h
  cases ha : a.operation with
  | error cause =>
    have hb : b.operation = .error cause := hop.symm.trans ha
    rw [ofWord_of_error a index size cause ha, ofWord_of_error b index size cause hb]
  | ok operation =>
    have hb : b.operation = .ok operation := hop.symm.trans ha
    have hfields := (Word.shown_eq_shown_iff a b operation ha hb).mp h
    have hoperands := fun label => Word.operands_eq_of_fields_eq a b label _ hfields
    cases hbranch : operation.isBranch with
    | false =>
      rw [ofWord_of_plain a index size operation ha hbranch,
        ofWord_of_plain b index size operation hb hbranch, hoperands]
    | true =>
      have hlayout := (operation.layout_of_branch hbranch).2
      have himm : a.field .imm = b.field .imm :=
        hfields .imm (by simp [hlayout, OperandLayout.fields])
      have hoffset : a.offset = b.offset := congrArg BitVec.toInt (BitVec.toNat_inj.mp himm)
      rw [ofWord_of_branch a index size operation ha hbranch,
        ofWord_of_branch b index size operation hb hbranch, hoffset]
      simp only [hoperands]

/-- **A text shows the shown bits**: words with the same text at the same position have the same
shown bits. -/
theorem shown_eq_of_text_eq (a b : Word) (index size : ℕ) (x y : Instruction)
    (hx : DecodedFrom a index size x) (hy : DecodedFrom b index size y) (h : x.text = y.text) :
    a.shown = b.shown := by
  obtain ⟨hop, hoperands⟩ := hx.operands_eq_of_text_eq hy h
  have hb : b.operation = .ok x.operation := hop ▸ hy.operation_eq
  rw [Word.shown_eq_shown_iff a b x.operation hx.operation_eq hb]
  cases hbranch : x.operation.isBranch with
  | false =>
    apply Word.fields_eq_of_operands_eq a b _ _ _ _ hoperands
    intro hlayout
    revert hbranch hlayout
    cases x.operation <;> decide
  | true =>
    rw [(x.operation.layout_of_branch hbranch).2] at hoperands ⊢
    obtain ⟨hrs, hrt, hlabel⟩ := Word.fields_eq_of_operands_branch_eq a b _ _ hoperands
    -- the same label is the same target, and from the same position the same offset
    obtain ⟨t, ht, -, hdestx⟩ := hx.target_of_branch hbranch
    obtain ⟨u, hu, -, hdesty⟩ := hy.target_of_branch (hop ▸ hbranch)
    simp only [labelOperand, ht, hu] at hlabel
    obtain rfl := labelText_injective hlabel
    have hsumx := ((branchDestination_eq_ok_iff _ _ _ _).mp hdestx).1
    have hsumy := ((branchDestination_eq_ok_iff _ _ _ _).mp hdesty).1
    have himm := Word.field_imm_eq_of_offset_eq a b (by omega)
    simp [OperandLayout.fields, hrs, hrt, himm]

end Instruction

/-! ## Renderings -/

/-- The lines of a rendering that do not end with a colon are the indented instructions. -/
theorem filter_render_interleave (layout : Layout) (f : ℕ → Option String)
    (instructions : List Instruction)
    (htext : ∀ instruction ∈ instructions,
      instruction.text.toList ≠ [] ∧ ':' ∉ instruction.text.toList) :
    ∀ start, ((interleave f start instructions).map (Line.render layout)).filter
        (fun text => text.toList.getLast? != some ':')
      = instructions.map (fun instruction => layout.indent ++ instruction.text) := by
  have hlabel : ∀ start, ((labelLine? f start).toList.map (Line.render layout)).filter
      (fun text => text.toList.getLast? != some ':') = [] := by
    intro start
    unfold labelLine?
    cases f start with
    | none => rfl
    | some name => simp [Line.render, Line.text]
  induction instructions with
  | nil =>
    intro start
    rw [interleave, hlabel]
    rfl
  | cons instruction rest ih =>
    intro start
    obtain ⟨hne, hcolon⟩ := htext instruction List.mem_cons_self
    have hlast : (layout.indent ++ instruction.text).toList.getLast? ≠ some ':' := by
      rw [String.toList_append, List.getLast?_append_of_ne_nil _ hne]
      intro hlast
      exact hcolon (List.mem_of_getLast? hlast)
    rw [interleave, List.map_append, List.filter_append, hlabel, List.map_cons, List.filter_cons]
    rw [if_pos (by simpa [Line.render] using hlast),
      ih (fun i hi => htext i (List.mem_cons_of_mem _ hi)) (start + 1)]
    rfl

namespace Listing

/-- **What a listing shows.**  Two programs that have listings look the same under an indentation
exactly if they are equally long and their words, position by position, have the same shown
bits. -/
theorem render_eq_render_iff (layout : Layout) (p q : List Word) (listing other : Listing)
    (hp : ofProgram p = .ok listing) (hq : ofProgram q = .ok other) :
    listing.render layout = other.render layout ↔
      p.length = q.length ∧
        ∀ (i : ℕ) (hip : i < p.length) (hiq : i < q.length), p[i].shown = q[i].shown := by
  obtain ⟨xs, hxs, hlines⟩ := exists_decodes_of_ofProgram p listing hp
  obtain ⟨ys, hys, hothers⟩ := exists_decodes_of_ofProgram q other hq
  constructor
  · intro h
    unfold render at h
    rw [hlines, hothers] at h
    -- the instructions are found by their texts, whatever the indentation is
    have htexts := congrArg (List.filter fun text => text.toList.getLast? != some ':') h
    rw [filter_render_interleave layout _ xs hxs.text_of_mem,
      filter_render_interleave layout _ ys hys.text_of_mem] at htexts
    have hlength : p.length = q.length := by
      rw [← hxs.length_eq, ← hys.length_eq]
      simpa using congrArg List.length htexts
    refine ⟨hlength, fun i hip hiq => ?_⟩
    have hix : i < xs.length := by rwa [hxs.length_eq]
    have hiy : i < ys.length := by rwa [hys.length_eq]
    have hy := hys.decodedFrom i hiq hiy
    rw [← hlength] at hy
    apply Instruction.shown_eq_of_text_eq _ _ i p.length _ _ (hxs.decodedFrom i hip hix) hy
    have htext := congrArg (fun texts => texts[i]?) htexts
    simpa [hix, hiy] using htext
  · rintro ⟨hlength, hshown⟩
    have hsame : xs = ys := by
      apply List.ext_getElem (by rw [hxs.length_eq, hys.length_eq, hlength])
      intro i hix hiy
      have hip : i < p.length := by rwa [← hxs.length_eq]
      have hiq : i < q.length := by rwa [← hys.length_eq]
      have hword := Instruction.ofWord_eq_of_shown_eq p[i] q[i] i p.length (hshown i hip hiq)
      rw [hxs.decoded i hip hix, hlength, hys.decoded i hiq hiy] at hword
      exact Except.ok.inj hword
    unfold render
    rw [hlines, hothers, hsame]

/-- Two programs of an addition and a branch back to it.  They differ only in the shift amount of
the addition, which its text does not show. -/
theorem render_eq_render_iff_of_addition :
    let p : List Word := [0x00221820, 0x1000FFFE]
    let q : List Word := [0x002219E0, 0x1000FFFE]
    p ≠ q ∧ ∃ listing other, ofProgram p = .ok listing ∧ ofProgram q = .ok other ∧
      listing.render { indent := ":" } = other.render { indent := ":" } := by
  intro p q
  have hp : ofProgram p = .ok { lines := [.label 0 "Addr_0000",
      .instruction 0 ⟨.add, .register, "add $v1, $at, $v0", none⟩,
      .instruction 1 ⟨.beq, .immediate, "beq $zero, $zero, Addr_0000", some 0⟩] } := by decide
  have hq : ofProgram q = .ok { lines := [.label 0 "Addr_0000",
      .instruction 0 ⟨.add, .register, "add $v1, $at, $v0", none⟩,
      .instruction 1 ⟨.beq, .immediate, "beq $zero, $zero, Addr_0000", some 0⟩] } := by decide
  refine ⟨by decide, _, _, hp, hq, (render_eq_render_iff _ p q _ _ hp hq).mpr ⟨rfl, ?_⟩⟩
  intro i hi _
  have : i < 2 := hi
  interval_cases i
  · show Word.shown 0x00221820 = Word.shown 0x002219E0
    decide
  · rfl

end Listing

end MipsListing
