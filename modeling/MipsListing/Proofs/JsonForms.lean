/-
# Round trips of the JSON forms

What is written is read back.  Not so the other way round, since a value has many spellings: the
fields of an object in any order and among others, the fields of a record as an array, a target
that is left out, a name as an object with one key.  But whatever is read is read as a value whose
own form is read as that value, so that a form which has been rewritten once stays as it is.

* `Listing.Fits` : a listing whose places are 64-bit numbers;
* `JsonForm.RoundTrips` : what is written is read back, and what is read can be written;
* `JsonForm.forms_round_trip` : the law for every type that has a JSON form.
-/
import MipsListing.Json.Forms
import MipsListing.Proofs.Instruction
import MipsListing.Proofs.Reading

namespace MipsListing

/-! ## Numbers and strings -/

namespace Json

/-- A number between two bounds is read from itself. -/
theorem integerIn?_eq_some_iff (json : Json) (low high value : ℤ) :
    json.integerIn? low high = some value ↔
      json = .integer value ∧ low ≤ value ∧ value < high := by
  cases json with
  | integer number =>
    simp only [integerIn?, Option.ite_none_right_eq_some, Option.some.injEq, integer.injEq]
    constructor
    · rintro ⟨hbounds, rfl⟩
      exact ⟨rfl, hbounds⟩
    · rintro ⟨rfl, hbounds⟩
      exact ⟨hbounds, rfl⟩
  | _ => simp [integerIn?]

/-- Places are read from 64-bit numbers without sign. -/
theorem index?_eq_some_iff (json : Json) (index : ℕ) :
    json.index? = some index ↔ json = natToJson index ∧ index < UInt64.size := by
  simp only [index?, Option.map_eq_some_iff, integerIn?_eq_some_iff, natToJson]
  constructor
  · rintro ⟨value, ⟨rfl, hlow, hhigh⟩, rfl⟩
    rw [Int.toNat_of_nonneg hlow]
    exact ⟨rfl, by omega⟩
  · rintro ⟨rfl, hindex⟩
    exact ⟨index, ⟨rfl, by omega, by omega⟩, Int.toNat_natCast index⟩

/-- Bytes are read as they are written. -/
theorem byte?_eq_some_iff (json : Json) (value : UInt8) :
    json.byte? = some value ↔ json = byteToJson value := by
  simp only [byte?, Option.map_eq_some_iff, integerIn?_eq_some_iff, byteToJson, natToJson]
  constructor
  · rintro ⟨number, ⟨rfl, hlow, hhigh⟩, rfl⟩
    rw [UInt8.toNat_ofNat_of_lt' (by omega), Int.toNat_of_nonneg hlow]
  · rintro rfl
    refine ⟨value.toNat, ⟨rfl, by omega, by exact_mod_cast value.toNat_lt_size⟩, ?_⟩
    rw [Int.toNat_natCast, UInt8.ofNat_toNat]

/-- A byte is read back. -/
@[simp] theorem byte?_byteToJson (value : UInt8) : (byteToJson value).byte? = some value :=
  (byte?_eq_some_iff _ value).mpr rfl

/-- Numbers with sign are read as they are written. -/
theorem int32?_eq_some_iff (json : Json) (value : Int32) :
    json.int32? = some value ↔ json = .integer value.toInt := by
  simp only [int32?, Option.map_eq_some_iff, integerIn?_eq_some_iff]
  constructor
  · rintro ⟨number, ⟨rfl, hlow, hhigh⟩, rfl⟩
    rw [Int32.toInt_ofInt_of_le (by omega) (by omega)]
  · rintro rfl
    have hlow := value.le_toInt
    have hhigh := value.toInt_lt
    exact ⟨value.toInt, ⟨rfl, by omega, by omega⟩, Int32.ofInt_toInt value⟩

/-- Strings are read as they are written. -/
theorem string?_eq_some_iff (json : Json) (text : String) :
    json.string? = some text ↔ json = .string text := by
  cases json <;> simp [string?]

/-- The fields of an object are found by their names. -/
theorem record?_object (entries : List (String × Json)) (h : (entries.map Prod.fst).Nodup) :
    (object entries).record? (entries.map Prod.fst)
      = some (entries.map fun entry => some entry.2) := by
  rw [record?, List.map_map, Option.some.injEq, List.map_inj_left]
  rintro ⟨name, value⟩ hentry
  obtain ⟨above, below, rfl⟩ := List.append_of_mem hentry
  rw [Function.comp_apply, List.lookup_eq_some_iff]
  refine ⟨above, below, rfl, fun entry habove => ?_⟩
  simp only [List.map_append, List.map_cons, List.nodup_append] at h
  have hne := h.2.2 entry.1 (List.mem_map_of_mem habove) name (by simp)
  simpa using fun heq => hne heq.symm

/-- A variant with fields is read from an object with one key. -/
theorem taggedFields?_eq_some_iff (json : Json) (name : String) (fields : Json) :
    json.taggedFields? = some (name, fields) ↔
      ∃ entries, fields = .object entries ∧ json = .object [(name, .object entries)] := by
  constructor
  · intro h
    unfold taggedFields? at h
    split at h
    · obtain ⟨rfl, rfl⟩ := Prod.mk.inj (Option.some.inj h)
      exact ⟨_, rfl, rfl⟩
    · exact absurd h (by simp)
  · rintro ⟨entries, rfl, rfl⟩
    rfl

end Json

/-! ## Enumerations -/

/-- A listed variant is found by its name if no two names are the same. -/
theorem variantOfName?_nameOf {α : Type} {variants : List α} {nameOf : α → String} {variant : α}
    (hmem : variant ∈ variants) (hnames : (variants.map nameOf).Nodup) :
    variantOfName? variants nameOf (.string (nameOf variant)) = some variant := by
  show variants.find? (nameOf · == nameOf variant) = some variant
  cases hfound : variants.find? (nameOf · == nameOf variant) with
  | none => simpa using List.find?_eq_none.mp hfound variant hmem
  | some found =>
    have hname : nameOf found = nameOf variant := by simpa using List.find?_some hfound
    rw [List.inj_on_of_nodup_map hnames (List.mem_of_find?_eq_some hfound) hmem hname]

/-- Every operation is listed. -/
theorem Operation.mem_all (operation : Operation) : operation ∈ Operation.all := by
  rw [Operation.all, List.mem_append, Format.mem_operations_iff, Format.mem_operations_iff]
  cases operation.format <;> simp

/-- An operation is read from its name. -/
theorem Operation.ofJson?_toJson (operation : Operation) :
    ofJson? (toJson operation) = some operation :=
  variantOfName?_nameOf operation.mem_all (by decide)

/-- An operand layout is read from its name. -/
theorem OperandLayout.ofJson?_toJson (layout : OperandLayout) :
    ofJson? (toJson layout) = some layout :=
  variantOfName?_nameOf (by cases layout <;> decide) (by decide)

/-- A format is read from its letter. -/
theorem Format.ofJson?_toJson (format : Format) : ofJson? (toJson format) = some format :=
  variantOfName?_nameOf (by cases format <;> decide) (by decide)

/-! ## Records -/

/-- The fields of the register format are read as they are written. -/
theorem RegisterFields.ofJson?_eq_some_iff (json : Json) (fields : RegisterFields) :
    ofJson? json = some fields ↔
      json.record? ["opcode", "rs", "rt", "rd", "shamt", "funct"] =
        some [some (byteToJson fields.opcode), some (byteToJson fields.rs),
          some (byteToJson fields.rt), some (byteToJson fields.rd),
          some (byteToJson fields.shamt), some (byteToJson fields.funct)] := by
  constructor
  · intro h
    obtain ⟨record, hrecord, h⟩ := Option.bind_eq_some_iff.mp h
    split at h
    · -- a field is read from the form of its value only, so the record consists of these forms
      simp only [bind, Option.bind_eq_some_iff, Json.byte?_eq_some_iff] at h
      obtain ⟨_, rfl, _, rfl, _, rfl, _, rfl, _, rfl, _, rfl, h⟩ := h
      obtain rfl := Option.some.inj h
      exact hrecord
    · exact absurd h (by simp)
  · intro h
    simp [ofJson?, h]

/-- The fields of the immediate format are read as they are written. -/
theorem ImmediateFields.ofJson?_eq_some_iff (json : Json) (fields : ImmediateFields) :
    ofJson? json = some fields ↔
      json.record? ["opcode", "rs", "rt", "imm"] =
        some [some (byteToJson fields.opcode), some (byteToJson fields.rs),
          some (byteToJson fields.rt), some (.integer fields.imm.toInt)] := by
  constructor
  · intro h
    obtain ⟨record, hrecord, h⟩ := Option.bind_eq_some_iff.mp h
    split at h
    · simp only [bind, Option.bind_eq_some_iff, Json.byte?_eq_some_iff,
        Json.int32?_eq_some_iff] at h
      obtain ⟨_, rfl, _, rfl, _, rfl, _, rfl, h⟩ := h
      obtain rfl := Option.some.inj h
      exact hrecord
    · exact absurd h (by simp)
  · intro h
    have himm := (Json.int32?_eq_some_iff _ fields.imm).mpr rfl
    simp [ofJson?, h, himm]

/-- The indentation is read as it is written. -/
theorem Layout.ofJson?_eq_some_iff (json : Json) (layout : Layout) :
    ofJson? json = some layout ↔
      json.record? ["indent"] = some [some (.string layout.indent)] := by
  constructor
  · intro h
    obtain ⟨record, hrecord, h⟩ := Option.bind_eq_some_iff.mp h
    split at h
    · simp only [bind, Option.bind_eq_some_iff, Json.string?_eq_some_iff] at h
      obtain ⟨_, rfl, h⟩ := h
      obtain rfl := Option.some.inj h
      exact hrecord
    · exact absurd h (by simp)
  · intro h
    simp [ofJson?, h, Json.string?]

/-- An instruction is read from its fields, each in one of its spellings. -/
theorem Instruction.ofJson?_eq_some_iff (json : Json) (instruction : Instruction) :
    ofJson? json = some instruction ↔ ∃ operation format target,
      json.record? ["op", "kind", "text", "target"] =
        some [some operation, some format, some (.string instruction.text), target] ∧
      ofJson? operation = some instruction.operation ∧
      ofJson? format = some instruction.format ∧
      targetOfJson? target = some instruction.target := by
  constructor
  · intro h
    obtain ⟨record, hrecord, h⟩ := Option.bind_eq_some_iff.mp h
    split at h
    · simp only [bind, Option.bind_eq_some_iff, Json.string?_eq_some_iff] at h
      obtain ⟨_, hoperation, _, hformat, _, rfl, _, htarget, h⟩ := h
      obtain rfl := Option.some.inj h
      exact ⟨_, _, _, hrecord, hoperation, hformat, htarget⟩
    · exact absurd h (by simp)
  · rintro ⟨operation, format, target, hrecord, hoperation, hformat, htarget⟩
    refine Option.bind_eq_some_iff.mpr ⟨_, hrecord, ?_⟩
    simp [hoperation, hformat, htarget, Json.string?]

/-! ## Lines and listings -/

/-- A label line is read from its fields. -/
theorem Line.labelOfJson?_eq_some_iff (json : Json) (line : Line) :
    labelOfJson? json = some line ↔ ∃ index name,
      json.record? ["index", "name"] = some [some (natToJson index), some (.string name)] ∧
      index < UInt64.size ∧ line = .label index name := by
  constructor
  · intro h
    obtain ⟨record, hrecord, h⟩ := Option.bind_eq_some_iff.mp h
    split at h
    · simp only [bind, Option.bind_eq_some_iff, Json.index?_eq_some_iff,
        Json.string?_eq_some_iff] at h
      obtain ⟨index, ⟨rfl, hindex⟩, name, rfl, h⟩ := h
      exact ⟨index, name, hrecord, hindex, (Option.some.inj h).symm⟩
    · exact absurd h (by simp)
  · rintro ⟨index, name, hrecord, hindex, rfl⟩
    have hread := (Json.index?_eq_some_iff _ index).mpr ⟨rfl, hindex⟩
    refine Option.bind_eq_some_iff.mpr ⟨_, hrecord, ?_⟩
    simp [hread, Json.string?]

/-- An instruction line is read from its fields. -/
theorem Line.instructionOfJson?_eq_some_iff (json : Json) (line : Line) :
    instructionOfJson? json = some line ↔ ∃ index content instruction,
      json.record? ["index", "decoded"] = some [some (natToJson index), some content] ∧
      index < UInt64.size ∧ ofJson? content = some instruction ∧
      line = .instruction index instruction := by
  constructor
  · intro h
    obtain ⟨record, hrecord, h⟩ := Option.bind_eq_some_iff.mp h
    split at h
    · simp only [bind, Option.bind_eq_some_iff, Json.index?_eq_some_iff] at h
      obtain ⟨index, ⟨rfl, hindex⟩, instruction, hread, h⟩ := h
      exact ⟨index, _, instruction, hrecord, hindex, hread, (Option.some.inj h).symm⟩
    · exact absurd h (by simp)
  · rintro ⟨index, content, instruction, hrecord, hindex, hcontent, rfl⟩
    have hread := (Json.index?_eq_some_iff _ index).mpr ⟨rfl, hindex⟩
    refine Option.bind_eq_some_iff.mpr ⟨_, hrecord, ?_⟩
    simp [hread, hcontent]

/-- A line is read from an object with one key, which says what line it is. -/
theorem Line.ofJson?_eq_some_iff (json : Json) (line : Line) :
    ofJson? json = some line ↔ ∃ entries,
      (json = .object [("Label", .object entries)] ∧
        labelOfJson? (.object entries) = some line) ∨
      (json = .object [("Insn", .object entries)] ∧
        instructionOfJson? (.object entries) = some line) := by
  constructor
  · intro h
    obtain ⟨tagged, htagged, h⟩ := Option.bind_eq_some_iff.mp h
    split at h
    · obtain ⟨entries, rfl, rfl⟩ := (Json.taggedFields?_eq_some_iff _ _ _).mp htagged
      exact ⟨entries, .inl ⟨rfl, h⟩⟩
    · obtain ⟨entries, rfl, rfl⟩ := (Json.taggedFields?_eq_some_iff _ _ _).mp htagged
      exact ⟨entries, .inr ⟨rfl, h⟩⟩
    · exact absurd h (by simp)
  · rintro ⟨entries, ⟨rfl, h⟩ | ⟨rfl, h⟩⟩
    · exact h
    · exact h

/-- A listing is read from the array of its lines. -/
theorem Listing.ofJson?_eq_some_iff (json : Json) (listing : Listing) :
    ofJson? json = some listing ↔ ∃ lines,
      json.record? ["lines"] = some [some (.array lines)] ∧
      List.Forall₂ (fun line value => ofJson? line = some value) lines listing.lines := by
  constructor
  · intro h
    obtain ⟨record, hrecord, h⟩ := Option.bind_eq_some_iff.mp h
    split at h
    · simp only [bind, Option.bind_eq_some_iff, mapM_eq_some_iff] at h
      obtain ⟨lines, hlines, h⟩ := h
      obtain rfl := Option.some.inj h
      exact ⟨_, hrecord, hlines⟩
    · exact absurd h (by simp)
  · rintro ⟨lines, hrecord, hlines⟩
    have hread := (mapM_eq_some_iff _ lines listing.lines).mpr hlines
    refine Option.bind_eq_some_iff.mpr ⟨_, hrecord, ?_⟩
    simp [hread]

/-! ## Values that fit -/

/-- The target of an instruction is a 64-bit number. -/
def Instruction.Fits (instruction : Instruction) : Prop :=
  ∀ target, instruction.target = some target → target < UInt64.size

/-- The places in a line are 64-bit numbers. -/
def Line.Fits : Line → Prop
  | label index _ => index < UInt64.size
  | instruction index content => index < UInt64.size ∧ content.Fits

/-- The places in a listing are 64-bit numbers. -/
def Listing.Fits (listing : Listing) : Prop := ∀ line ∈ listing.lines, line.Fits

/-- A target is read from a number, and none from `null` or a missing field. -/
theorem targetOfJson?_eq_some_iff (field : Option Json) (target : Option ℕ) :
    targetOfJson? field = some target ↔
      (target = none ∧ (field = none ∨ field = some .null)) ∨
      ∃ index, target = some index ∧ field = some (natToJson index) ∧ index < UInt64.size := by
  unfold targetOfJson?
  split
  · simp [eq_comm]
  · simp [eq_comm, natToJson]
  · rename_i json hnull
    simp only [Option.map_eq_some_iff, Json.index?_eq_some_iff, Option.some.injEq]
    constructor
    · rintro ⟨index, ⟨rfl, hindex⟩, rfl⟩
      exact .inr ⟨index, rfl, rfl, hindex⟩
    · rintro (⟨-, hmissing | rfl⟩ | ⟨index, rfl, rfl, hindex⟩)
      · exact absurd hmissing (by simp)
      · exact absurd rfl hnull
      · exact ⟨index, ⟨rfl, hindex⟩, rfl⟩

/-- A target that fits is read back. -/
theorem targetOfJson?_targetToJson (target : Option ℕ)
    (h : ∀ index, target = some index → index < UInt64.size) :
    targetOfJson? (some (targetToJson target)) = some target := by
  rw [targetOfJson?_eq_some_iff]
  cases target with
  | none => exact .inl ⟨rfl, .inr rfl⟩
  | some index => exact .inr ⟨index, rfl, rfl, h index rfl⟩

/-! ## The law -/

/-- Reads a value and writes it again. -/
def JsonForm.rewrite? (α : Type) [JsonForm α] (json : Json) : Option Json :=
  (ofJson? json : Option α).map toJson

/-- The law of a JSON form.  Exactly the values that fit are read back from what is written, and
whatever is read fits, is read back as itself, and is in a form that rewriting leaves as it is. -/
structure JsonForm.RoundTrips (α : Type) [JsonForm α] (fits : α → Prop) : Prop where
  read_written : ∀ value : α, ofJson? (toJson value) = some value ↔ fits value
  read_again : ∀ (json : Json) (value : α), ofJson? json = some value →
    fits value ∧ ofJson? (toJson value) = some value ∧
      rewrite? α (toJson value) = some (toJson value)

/-- The law holds if what fits is read back and what is read fits. -/
theorem JsonForm.RoundTrips.of_fits {α : Type} [JsonForm α] {fits : α → Prop}
    (hwritten : ∀ value : α, fits value → ofJson? (toJson value) = some value)
    (hread : ∀ (json : Json) (value : α), ofJson? json = some value → fits value) :
    RoundTrips α fits where
  read_written := fun value => ⟨hread (toJson value) value, hwritten value⟩
  read_again := by
    intro json value h
    have hfits := hread json value h
    have hagain := hwritten value hfits
    refine ⟨hfits, hagain, ?_⟩
    rw [rewrite?, hagain, Option.map_some]

/-- The law of a type all of whose values fit. -/
theorem JsonForm.RoundTrips.of_read_written {α : Type} [JsonForm α]
    (h : ∀ value : α, ofJson? (toJson value) = some value) : RoundTrips α fun _ => True :=
  of_fits (fun value _ => h value) fun _ _ _ => trivial

/-- The fields of the register format are read back. -/
theorem RegisterFields.ofJson?_toJson (fields : RegisterFields) :
    ofJson? (toJson fields) = some fields :=
  (ofJson?_eq_some_iff _ fields).mpr (Json.record?_object _ (by simp))

/-- The fields of the immediate format are read back. -/
theorem ImmediateFields.ofJson?_toJson (fields : ImmediateFields) :
    ofJson? (toJson fields) = some fields :=
  (ofJson?_eq_some_iff _ fields).mpr (Json.record?_object _ (by simp))

/-- A layout is read back. -/
theorem Layout.ofJson?_toJson (layout : Layout) : ofJson? (toJson layout) = some layout :=
  (ofJson?_eq_some_iff _ layout).mpr (Json.record?_object _ (by simp))

/-- The law for instructions. -/
theorem Instruction.roundTrips : JsonForm.RoundTrips Instruction Instruction.Fits := by
  refine .of_fits (fun instruction hfits => ?_) (fun json instruction h => ?_)
  · exact (ofJson?_eq_some_iff _ instruction).mpr ⟨_, _, _, Json.record?_object _ (by simp),
      instruction.operation.ofJson?_toJson, instruction.format.ofJson?_toJson,
      targetOfJson?_targetToJson _ hfits⟩
  · obtain ⟨_, _, field, -, -, -, htarget⟩ := (ofJson?_eq_some_iff json instruction).mp h
    intro target hsome
    rw [hsome, targetOfJson?_eq_some_iff] at htarget
    obtain ⟨hnone, -⟩ | ⟨index, heq, -, hindex⟩ := htarget
    · exact absurd hnone (by simp)
    · rwa [Option.some.inj heq]

/-- The law for lines. -/
theorem Line.roundTrips : JsonForm.RoundTrips Line Line.Fits := by
  refine .of_fits (fun line hfits => ?_) (fun json line h => ?_)
  · rw [ofJson?_eq_some_iff]
    cases line with
    | label index name =>
      refine ⟨_, .inl ⟨rfl, (labelOfJson?_eq_some_iff _ _).mpr ?_⟩⟩
      exact ⟨index, name, Json.record?_object _ (by simp), hfits, rfl⟩
    | instruction index content =>
      refine ⟨_, .inr ⟨rfl, (instructionOfJson?_eq_some_iff _ _).mpr ?_⟩⟩
      exact ⟨index, _, content, Json.record?_object _ (by simp), hfits.1,
        (Instruction.roundTrips.read_written content).mpr hfits.2, rfl⟩
  · obtain ⟨entries, ⟨-, hlabel⟩ | ⟨-, hinstruction⟩⟩ := (ofJson?_eq_some_iff json line).mp h
    · obtain ⟨index, name, -, hindex, rfl⟩ := (labelOfJson?_eq_some_iff _ _).mp hlabel
      exact hindex
    · obtain ⟨index, content, instruction, -, hindex, hcontent, rfl⟩ :=
        (instructionOfJson?_eq_some_iff _ _).mp hinstruction
      exact ⟨hindex, (Instruction.roundTrips.read_again content instruction hcontent).1⟩

/-- The law for listings, from that for their lines. -/
theorem Listing.roundTrips : JsonForm.RoundTrips Listing Listing.Fits := by
  refine .of_fits (fun listing hfits => ?_) (fun json listing h => ?_)
  · rw [ofJson?_eq_some_iff]
    refine ⟨_, Json.record?_object _ (by simp), ?_⟩
    rw [List.forall₂_map_left_iff, List.forall₂_same]
    exact fun line hline => (Line.roundTrips.read_written line).mpr (hfits line hline)
  · obtain ⟨lines, -, hlines⟩ := (ofJson?_eq_some_iff json listing).mp h
    intro line hline
    obtain ⟨i, hi, rfl⟩ := List.getElem_of_mem hline
    have hread := hlines.get (by rw [hlines.length_eq]; exact hi) hi
    exact (Line.roundTrips.read_again _ _ hread).1

/-- **The JSON forms round-trip.**  Every value is read back from its form if its places are 64-bit
numbers.  Every JSON value that is read, in whatever spelling, stands for such a value, is rewritten
into the form of that value, and rewriting it once more changes nothing. -/
theorem JsonForm.forms_round_trip :
    RoundTrips Operation (fun _ => True) ∧ RoundTrips OperandLayout (fun _ => True) ∧
    RoundTrips Format (fun _ => True) ∧ RoundTrips RegisterFields (fun _ => True) ∧
    RoundTrips ImmediateFields (fun _ => True) ∧ RoundTrips Layout (fun _ => True) ∧
    RoundTrips Instruction Instruction.Fits ∧ RoundTrips Line Line.Fits ∧
    RoundTrips Listing Listing.Fits :=
  ⟨.of_read_written Operation.ofJson?_toJson, .of_read_written OperandLayout.ofJson?_toJson,
    .of_read_written Format.ofJson?_toJson, .of_read_written RegisterFields.ofJson?_toJson,
    .of_read_written ImmediateFields.ofJson?_toJson, .of_read_written Layout.ofJson?_toJson,
    Instruction.roundTrips, Line.roundTrips, Listing.roundTrips⟩

/-- A listing spelled with an unknown field, fields out of order, a record as an array, a name as an
object, and an instruction without a target. -/
theorem JsonForm.forms_round_trip_of_spellings :
    let json : Json := .object [("size", .integer 3), ("lines", .array
      [.object [("Label", .object [("name", .string "Addr_0000"), ("index", .integer 0)])],
       .object [("Insn", .object [("index", .integer 0), ("decoded", .array
        [.object [("Beq", .null)], .string "I", .string "beq $zero, $zero, Addr_0000",
         .integer 0])])],
       .object [("Insn", .object [("index", .integer 1), ("decoded", .object
        [("text", .string "sll $zero, $zero, 0"), ("kind", .string "R"),
         ("op", .string "Sll")])])]])]
    let listing : Listing := { lines :=
      [.label 0 "Addr_0000",
       .instruction 0 ⟨.beq, .immediate, "beq $zero, $zero, Addr_0000", some 0⟩,
       .instruction 1 ⟨.sll, .register, "sll $zero, $zero, 0", none⟩] }
    ofJson? json = some listing ∧ listing.Fits ∧ ofJson? (toJson listing) = some listing ∧
      rewrite? Listing (toJson listing) = some (toJson listing) := by
  intro json listing
  obtain ⟨-, -, -, -, -, -, -, -, hlisting⟩ := forms_round_trip
  have hread : ofJson? json = some listing := by decide
  exact ⟨hread, hlisting.read_again json listing hread⟩

end MipsListing
