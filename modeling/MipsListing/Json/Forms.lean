/-
# JSON forms

How the types of the library are written as JSON values and read back.  A record is written as
an object, and read from an object or from the array of its fields; a variant without data is
written as its name, and a line as an object with one key.
-/
import MipsListing.Json
import MipsListing.Listing

namespace MipsListing

/-- A type with a JSON form. -/
class JsonForm (α : Type) where
  /-- The JSON form of a value. -/
  toJson : α → Json
  /-- The value that a JSON value stands for, if it stands for one. -/
  ofJson? : Json → Option α

export JsonForm (toJson ofJson?)

/-! ## Enumerations -/

/-- The variant of an enumeration that bears a name. -/
def variantOfName? {α : Type} (variants : List α) (nameOf : α → String) (json : Json) : Option α :=
  json.variant?.bind fun name => variants.find? (nameOf · == name)

/-- The name of an operation as a variant. -/
def Operation.variantName : Operation → String
  | add => "Add"
  | addu => "Addu"
  | and => "And"
  | nor => "Nor"
  | or => "Or"
  | slt => "Slt"
  | sltu => "Sltu"
  | sll => "Sll"
  | srl => "Srl"
  | sub => "Sub"
  | subu => "Subu"
  | addi => "Addi"
  | addiu => "Addiu"
  | andi => "Andi"
  | beq => "Beq"
  | bne => "Bne"
  | lbu => "Lbu"
  | lhu => "Lhu"
  | ll => "Ll"
  | lui => "Lui"
  | lw => "Lw"
  | ori => "Ori"
  | slti => "Slti"
  | sltiu => "Sltiu"
  | sb => "Sb"
  | sc => "Sc"
  | sh => "Sh"
  | sw => "Sw"

/-- Every operation, by format. -/
def Operation.all : List Operation := Format.register.operations ++ Format.immediate.operations

instance : JsonForm Operation where
  toJson operation := .string operation.variantName
  ofJson? := variantOfName? Operation.all Operation.variantName

/-- The name of an operand layout as a variant. -/
def OperandLayout.variantName : OperandLayout → String
  | registers => "RegReg"
  | shift => "Shift"
  | immediate => "RegImm"
  | memory => "Memory"
  | upper => "Upper"
  | branch => "Branch"

/-- Every operand layout. -/
def OperandLayout.all : List OperandLayout :=
  [.registers, .shift, .immediate, .memory, .upper, .branch]

instance : JsonForm OperandLayout where
  toJson layout := .string layout.variantName
  ofJson? := variantOfName? OperandLayout.all OperandLayout.variantName

/-- Every format. -/
def Format.all : List Format := [.register, .immediate]

instance : JsonForm Format where
  toJson format := .string format.letter
  ofJson? := variantOfName? Format.all Format.letter

/-! ## Numbers -/

/-- A natural number as a JSON value. -/
def natToJson (value : Nat) : Json := .integer value

/-- A byte as a JSON value. -/
def byteToJson (value : UInt8) : Json := natToJson value.toNat

/-! ## Records -/

instance : JsonForm RegisterFields where
  toJson fields := .object
    [("opcode", byteToJson fields.opcode), ("rs", byteToJson fields.rs),
     ("rt", byteToJson fields.rt), ("rd", byteToJson fields.rd),
     ("shamt", byteToJson fields.shamt), ("funct", byteToJson fields.funct)]
  ofJson? json := do
    match ← json.record? ["opcode", "rs", "rt", "rd", "shamt", "funct"] with
    | [some opcode, some rs, some rt, some rd, some shamt, some funct] =>
      return {
        opcode := ← opcode.byte?
        rs := ← rs.byte?
        rt := ← rt.byte?
        rd := ← rd.byte?
        shamt := ← shamt.byte?
        funct := ← funct.byte? }
    | _ => none

instance : JsonForm ImmediateFields where
  toJson fields := .object
    [("opcode", byteToJson fields.opcode), ("rs", byteToJson fields.rs),
     ("rt", byteToJson fields.rt), ("imm", .integer fields.imm.toInt)]
  ofJson? json := do
    match ← json.record? ["opcode", "rs", "rt", "imm"] with
    | [some opcode, some rs, some rt, some imm] =>
      return {
        opcode := ← opcode.byte?
        rs := ← rs.byte?
        rt := ← rt.byte?
        imm := ← imm.int32? }
    | _ => none

/-- The JSON form of a target; `null` stands for none. -/
def targetToJson : Option Nat → Json
  | none => .null
  | some target => natToJson target

/-- Reads a target; a record may leave the field out if there is none. -/
def targetOfJson? : Option Json → Option (Option Nat)
  | none | some .null => some none
  | some json => json.index?.map some

instance : JsonForm Instruction where
  toJson instruction := .object
    [("op", toJson instruction.operation), ("kind", toJson instruction.format),
     ("text", .string instruction.text), ("target", targetToJson instruction.target)]
  ofJson? json := do
    match ← json.record? ["op", "kind", "text", "target"] with
    | [some operation, some format, some text, target] =>
      return {
        operation := ← ofJson? operation
        format := ← ofJson? format
        text := ← text.string?
        target := ← targetOfJson? target }
    | _ => none

instance : JsonForm Layout where
  toJson layout := .object [("indent", .string layout.indent)]
  ofJson? json := do
    match ← json.record? ["indent"] with
    | [some indent] => return { indent := ← indent.string? }
    | _ => none

/-! ## Lines and listings -/

/-- The label line that a record stands for. -/
def Line.labelOfJson? (json : Json) : Option Line := do
  match ← json.record? ["index", "name"] with
  | [some index, some name] => return .label (← index.index?) (← name.string?)
  | _ => none

/-- The instruction line that a record stands for. -/
def Line.instructionOfJson? (json : Json) : Option Line := do
  match ← json.record? ["index", "decoded"] with
  | [some index, some content] => return .instruction (← index.index?) (← ofJson? content)
  | _ => none

instance : JsonForm Line where
  toJson
    | .label index name =>
      .object [("Label", .object [("index", natToJson index), ("name", .string name)])]
    | .instruction index instruction =>
      .object [("Insn", .object [("index", natToJson index), ("decoded", toJson instruction)])]
  ofJson? json := do
    match ← json.taggedFields? with
    | ("Label", fields) => Line.labelOfJson? fields
    | ("Insn", fields) => Line.instructionOfJson? fields
    | _ => none

instance : JsonForm Listing where
  toJson listing := .object [("lines", .array (listing.lines.map toJson))]
  ofJson? json := do
    match ← json.record? ["lines"] with
    | [some (.array lines)] => return { lines := ← lines.mapM ofJson? }
    | _ => none

end MipsListing
