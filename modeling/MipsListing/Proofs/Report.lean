/-
# The account of a listing

A report is put together from a listing without sorting or counting anew.  It is nevertheless in
order: the labels rise, each has the byte address of its position and is named after it, and its
line stands below the instructions of lower positions and the labels above it.  So every line of
the report can be found by counting.  The text of a report gives all of this away: it is read as
the account of the listing.

* `LabelEntry.IsAccurate` : an entry that gives the byte address of its position;
* `Listing.Numbered` : which line of a listing stands where;
* `Report.ofListing_accounts_for` : a report against the program that it is about;
* `Listing.account`, `Report.read?_pretty_ofListing` : what the text of a report is read as.
-/
import MipsListing.Report
import MipsListing.Proofs.JsonText
import MipsListing.Proofs.Placement
import MipsListing.Proofs.WordText

namespace MipsListing

/-! ## Label entries -/

namespace LabelEntry

/-- An entry gives the byte address of its position, as a number that no 32-bit arithmetic has
cut, and in the four digits of its name. -/
structure IsAccurate (entry : LabelEntry) : Prop where
  index_le : entry.index ≤ 0x3FFF
  address_eq : entry.address.toNat = 4 * entry.index
  name_eq : ∃ digits : List Char, entry.name = "Addr_" ++ String.ofList digits ∧
    digits.length = 4 ∧ (∀ c ∈ digits, c ∈ Word.hexDigits) ∧
    Radix.hexadecimal.read? digits = some entry.address.toNat

/-- The address of a position that has a name is not cut. -/
theorem toNat_address_ofLabel (index : ℕ) (name : String) (h : index ≤ 0x3FFF) :
    (ofLabel index name).address.toNat = 4 * index := by
  show (UInt32.ofNat index * 4).toNat = 4 * index
  rw [UInt32.toNat_mul, UInt32.toNat_ofNat', show (4 : UInt32).toNat = 4 from rfl]
  omega

/-- The entry of a position that has a name is accurate. -/
theorem isAccurate_ofLabel (index : ℕ) (h : index ≤ 0x3FFF) :
    (ofLabel index (labelText index)).IsAccurate where
  index_le := h
  address_eq := toNat_address_ofLabel index _ h
  name_eq := by
    rw [toNat_address_ofLabel index _ h]
    exact exists_digits_labelText index h

/-- The JSON form of the entry of a position that has a name. -/
theorem toJson_ofLabel (index : ℕ) (name : String) (h : index ≤ 0x3FFF) :
    (ofLabel index name).toJson = .object
      [("index", .integer index), ("address", .integer (4 * index)), ("name", .string name)] := by
  have haddress := toNat_address_ofLabel index name h
  show Json.object [("index", .integer index),
    ("address", .integer (ofLabel index name).address.toNat), ("name", .string name)] = _
  rw [haddress]
  push_cast
  rfl

end LabelEntry

namespace Listing

/-! ## Lines, labels and instructions -/

/-- Every line is a label or an instruction. -/
theorem length_labels_add_instructionCount (listing : Listing) :
    listing.labels.length + listing.instructionCount = listing.lines.length := by
  have hlabel : ∀ line : Line, line.label?.isSome = line.isLabel := by
    intro line
    cases line <;> rfl
  unfold labels instructionCount
  rw [List.length_filterMap_eq_countP, List.length_eq_countP_add_countP Line.isLabel]
  simp [hlabel]

/-- The lines of a listing by number: a label stands below the instructions of lower positions and
the labels above it, an instruction below the instructions of lower positions and the labels up to
its own. -/
structure Numbered (listing : Listing) (instructions : List Instruction) : Prop where
  length_lines : listing.lines.length = instructions.length + listing.labels.length
  getElem?_label : ∀ (k index : ℕ) (name : String), listing.labels[k]? = some (index, name) →
    listing.lines[index + k]? = some (.label index name)
  getElem?_instruction : ∀ (i : ℕ) (instruction : Instruction),
    instructions[i]? = some instruction →
      listing.lines[i + listing.labels.countP (·.1 ≤ i)]? = some (.instruction i instruction)

/-- A listing with the lines of a pass is numbered. -/
theorem numbered_of_lines_eq (f : ℕ → Option String) {listing : Listing}
    {instructions : List Instruction} (h : listing.lines = interleave f 0 instructions) :
    Numbered listing instructions where
  length_lines := by
    rw [labels, h]
    exact length_interleave f instructions 0
  getElem?_label := by
    intro k index name hlabel
    have hline := getElem?_interleave_of_label f instructions 0 index k name
    rw [Nat.zero_add, ← h] at hline
    exact hline hlabel
  getElem?_instruction := by
    intro i instruction hget
    have hline := getElem?_interleave_of_instruction f instructions 0 i instruction hget
    rw [Nat.zero_add, ← h] at hline
    exact hline

/-- The instructions of a numbered listing are counted. -/
theorem Numbered.instructionCount_eq {listing : Listing} {instructions : List Instruction}
    (h : listing.Numbered instructions) : listing.instructionCount = instructions.length := by
  have hlength := h.length_lines
  have hcount := listing.length_labels_add_instructionCount
  omega

/-- A label of a program stands at a position whose address has four digits, and has its name. -/
theorem label_of_decodes {program : List Word} {instructions : List Instruction}
    (hdecodes : Decodes Instruction.ofWord program instructions) (index : ℕ) (name : String)
    (h : .label index name ∈ interleave (calledLabel? instructions) 0 instructions) :
    index ≤ 0x3FFF ∧ name = labelText index := by
  obtain ⟨⟨instruction, hmem, htarget⟩, hname⟩ :=
    eq_labelText_of_label_mem instructions index name h
  exact ⟨hdecodes.nameable instruction hmem index htarget, hname⟩

end Listing

namespace Report

section Lines

variable {program : List Word} {instructions : List Instruction} {listing : Listing}

/-- A line of a report is a line of its listing, set in the layout. -/
theorem getElem?_lines (source : String) (listing : Listing) (layout : Layout) (p : ℕ) :
    (ofListing source listing layout).lines[p]? = listing.lines[p]?.map (Line.render layout) :=
  List.getElem?_map

/-- The entries of a report are accurate, and their labels stand at their places. -/
theorem isAccurate_of_decodes (hdecodes : Decodes Instruction.ofWord program instructions)
    (hlines : listing.lines = interleave (calledLabel? instructions) 0 instructions)
    (source : String) (layout : Layout) (k : ℕ)
    (hk : k < (ofListing source listing layout).labels.length) :
    let report := ofListing source listing layout
    report.labels[k].IsAccurate ∧
      report.lines[report.labels[k].index + k]? = some (report.labels[k].name ++ ":") := by
  intro report
  have hk' : k < listing.labels.length := by rwa [← List.length_map]
  obtain ⟨index, name, hlabel⟩ : ∃ index name, listing.labels[k] = (index, name) := ⟨_, _, rfl⟩
  have hget : listing.labels[k]? = some (index, name) := by
    rw [List.getElem?_eq_getElem hk', hlabel]
  have hline := (Listing.numbered_of_lines_eq _ hlines).getElem?_label k index name hget
  obtain ⟨hle, rfl⟩ := Listing.label_of_decodes hdecodes index name
    (hlines ▸ List.mem_of_getElem? hline)
  have hentry : report.labels[k] = LabelEntry.ofLabel index (labelText index) := by
    simp only [report, ofListing, List.getElem_map, hlabel]
  rw [hentry]
  refine ⟨LabelEntry.isAccurate_ofLabel index hle, ?_⟩
  rw [getElem?_lines]
  exact congrArg (Option.map (Line.render layout)) hline

/-- The text of an instruction stands at the place of the instruction. -/
theorem getElem?_lines_of_instruction (hnumbered : listing.Numbered instructions)
    (source : String) (layout : Layout) (i : ℕ) (hi : i < instructions.length) :
    let report := ofListing source listing layout
    report.lines[i + report.labels.countP (·.index ≤ i)]?
      = some (layout.indent ++ instructions[i].text) := by
  intro report
  have hline := hnumbered.getElem?_instruction i _ (List.getElem?_eq_getElem hi)
  rw [getElem?_lines, show report.labels.countP (·.index ≤ i) = listing.labels.countP (·.1 ≤ i)
    from List.countP_map]
  exact congrArg (Option.map (Line.render layout)) hline

end Lines

/-- **A report accounts for its program.**  It has as many instructions as the program has words.
Its labels rise, and their entries are accurate.  The line of a label stands below the instructions
of lower positions and the labels above it; the line of an instruction, which is its text behind
the indentation, stands below the instructions of lower positions and the labels up to its own.
There are no other lines. -/
theorem ofListing_accounts_for (program : List Word) (listing : Listing)
    (h : Listing.ofProgram program = .ok listing) (source : String) (layout : Layout) :
    let report := ofListing source listing layout
    report.instructions = program.length ∧
    report.labels.Pairwise (fun a b => a.index < b.index) ∧
    (∀ (k : ℕ) (hk : k < report.labels.length), report.labels[k].IsAccurate ∧
      report.lines[report.labels[k].index + k]? = some (report.labels[k].name ++ ":")) ∧
    report.lines.length = program.length + report.labels.length ∧
    ∀ (i : ℕ) (hi : i < program.length), ∃ instruction,
      Instruction.ofWord program[i] i program.length = .ok instruction ∧
      report.lines[i + report.labels.countP (·.index ≤ i)]?
        = some (layout.indent ++ instruction.text) := by
  obtain ⟨instructions, hdecodes, hlines⟩ := Listing.exists_decodes_of_ofProgram program listing h
  have hnumbered := Listing.numbered_of_lines_eq _ hlines
  have hlength := hdecodes.length_eq
  intro report
  refine ⟨?_, ?_, ?_, ?_, ?_⟩
  · rw [← hlength]
    exact hnumbered.instructionCount_eq
  · have hrises : listing.labels.Pairwise fun a b => a.1 < b.1 := by
      rw [Listing.labels, hlines]
      exact pairwise_labels_interleave _ instructions 0
    exact List.pairwise_map.mpr hrises
  · exact isAccurate_of_decodes hdecodes hlines source layout
  · rw [← hlength, show report.lines.length = listing.lines.length from List.length_map _,
      show report.labels.length = listing.labels.length from List.length_map _]
    exact hnumbered.length_lines
  · intro i hi
    have hi' : i < instructions.length := by rwa [hlength]
    exact ⟨instructions[i], hdecodes.decoded i hi hi',
      getElem?_lines_of_instruction hnumbered source layout i hi'⟩

/-- Two branches to the end of a program, one to its first word, and one from the last word to the
word above it. -/
theorem ofListing_accounts_for_branches :
    let program : List Word := [0x10000003, 0x1000FFFE, 0x10000001, 0x1400FFFE]
    ∃ listing, Listing.ofProgram program = .ok listing ∧
      let report := ofListing "loop.obj" listing { indent := "  " }
      report.labels = [⟨0, 0, "Addr_0000"⟩, ⟨2, 8, "Addr_0008"⟩, ⟨4, 16, "Addr_0010"⟩] ∧
      report.instructions = 4 ∧ report.lines.length = 7 ∧
      report.lines[4 + 2]? = some "Addr_0010:" ∧
      report.lines[3 + 2]? = some "  bne $zero, $zero, Addr_0008" := by
  intro program
  have hlisting : Listing.ofProgram program = .ok { lines :=
      [.label 0 "Addr_0000",
       .instruction 0 ⟨.beq, .immediate, "beq $zero, $zero, Addr_0010", some 4⟩,
       .instruction 1 ⟨.beq, .immediate, "beq $zero, $zero, Addr_0000", some 0⟩,
       .label 2 "Addr_0008",
       .instruction 2 ⟨.beq, .immediate, "beq $zero, $zero, Addr_0010", some 4⟩,
       .instruction 3 ⟨.bne, .immediate, "bne $zero, $zero, Addr_0008", some 2⟩,
       .label 4 "Addr_0010"] } := by decide
  refine ⟨_, hlisting, ?_⟩
  obtain ⟨hcount, -, hlabels, hlength, hinstructions⟩ :=
    ofListing_accounts_for program _ hlisting "loop.obj" { indent := "  " }
  obtain ⟨instruction, hdecoded, hlast⟩ := hinstructions 3 (by decide)
  obtain rfl : instruction = ⟨.bne, .immediate, "bne $zero, $zero, Addr_0008", some 2⟩ :=
    Except.ok.inj (hdecoded.symm.trans (by decide))
  exact ⟨by decide, hcount, hlength, (hlabels 2 (by decide)).2, hlast⟩

end Report

/-! ## The text of a report -/

/-- The account of the listing of a program of `size` words as a JSON value: where the program came
from, its size, the labels with their positions, byte addresses and names, and the lines. -/
def Listing.account (listing : Listing) (source : String) (size : ℕ) (lines : List String) :
    Json := .object
  [("source", .string source), ("instructions", .integer size),
   ("labels", .array (listing.labels.map fun label => .object
      [("index", .integer label.1), ("address", .integer (4 * label.1)),
       ("name", .string label.2)])),
   ("lines", .array (lines.map .string))]

/-- An account has no fractions. -/
theorem Listing.wellFormed_account (listing : Listing) (source : String) (size : ℕ)
    (lines : List String) : (listing.account source size lines).WellFormed := by
  apply Json.WellFormed.object
  simp only [List.forall_mem_cons]
  refine ⟨.string source, .integer size, .array _ ?_, .array _ ?_, by simp⟩
  · intro item hitem
    obtain ⟨⟨index, name⟩, -, rfl⟩ := List.mem_map.mp hitem
    apply Json.WellFormed.object
    simp only [List.forall_mem_cons]
    exact ⟨.integer _, .integer _, .string name, by simp⟩
  · intro item hitem
    obtain ⟨line, -, rfl⟩ := List.mem_map.mp hitem
    exact .string line

namespace Report

/-- The JSON form of a report is the account of its listing. -/
theorem toJson_ofListing {program : List Word} {listing : Listing}
    (h : Listing.ofProgram program = .ok listing) (source : String) (layout : Layout) :
    (ofListing source listing layout).toJson =
      listing.account source program.length (listing.render layout) := by
  obtain ⟨instructions, hdecodes, hlines⟩ := Listing.exists_decodes_of_ofProgram program listing h
  have hcount : listing.instructionCount = program.length :=
    (Listing.numbered_of_lines_eq _ hlines).instructionCount_eq.trans hdecodes.length_eq
  have hlabels : ∀ label ∈ listing.labels,
      (LabelEntry.ofLabel label.1 label.2).toJson = .object
        [("index", .integer label.1), ("address", .integer (4 * label.1)),
         ("name", .string label.2)] := by
    intro label hlabel
    rw [Listing.labels, hlines, mem_filterMap_label?_iff] at hlabel
    have hle := (Listing.label_of_decodes hdecodes label.1 label.2 hlabel).1
    exact LabelEntry.toJson_ofLabel label.1 label.2 hle
  show Json.object [_, ("instructions", .integer (listing.instructionCount : ℕ)),
    ("labels", .array ((listing.labels.map fun label =>
      LabelEntry.ofLabel label.1 label.2).map LabelEntry.toJson)), _] = _
  rw [hcount, List.map_map]
  exact congrArg (fun labels => Json.object [_, _, ("labels", .array labels), _])
    (List.map_congr_left hlabels)

/-- **The text of a report** is read as the account of its listing. -/
theorem read?_pretty_ofListing {program : List Word} {listing : Listing}
    (h : Listing.ofProgram program = .ok listing) (source : String) (layout : Layout) :
    Json.read? (ofListing source listing layout).pretty =
      some (listing.account source program.length (listing.render layout)) := by
  rw [pretty, toJson_ofListing h]
  exact Json.read?_pretty (listing.wellFormed_account _ _ _)

end Report

end MipsListing
