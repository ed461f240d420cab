/-
# Operations

The operations of the supported subset: eleven in the register format, selected by a function
code under opcode zero, and seventeen in the immediate format, selected by the opcode.
-/
import MipsListing.Refusal

namespace MipsListing

/-! ## Operations and operand layouts -/

/-- An operation of the supported subset. -/
inductive Operation where
  | add | addu | and | nor | or | slt | sltu | sll | srl | sub | subu
  | addi | addiu | andi | beq | bne | lbu | lhu | ll | lui | lw | ori | slti | sltiu
  | sb | sc | sh | sw
  deriving DecidableEq, Repr

/-- Which operands the text of an instruction shows, and in what order. -/
inductive OperandLayout where
  /-- Written `rd, rs, rt`. -/
  | registers
  /-- Written `rd, rt, shamt`. -/
  | shift
  /-- Written `rt, rs, imm`. -/
  | immediate
  /-- Written `rt, imm(rs)`. -/
  | memory
  /-- Written `rt, imm`. -/
  | upper
  /-- Written `rs, rt, label`. -/
  | branch
  deriving DecidableEq, Repr

/-- What the instruction set lays down for an operation. -/
structure Encoding where
  /-- The name of the operation in assembly. -/
  mnemonic : String
  /-- The format of its words. -/
  format : Format
  /-- The function code in the register format, the opcode in the immediate format. -/
  code : UInt8
  /-- How its operands are written. -/
  layout : OperandLayout
  deriving DecidableEq, Repr

namespace Operation

/-- The encoding of each operation. -/
def encoding : Operation → Encoding
  | add => ⟨"add", .register, 0x20, .registers⟩
  | addu => ⟨"addu", .register, 0x21, .registers⟩
  | and => ⟨"and", .register, 0x24, .registers⟩
  | nor => ⟨"nor", .register, 0x27, .registers⟩
  | or => ⟨"or", .register, 0x25, .registers⟩
  | slt => ⟨"slt", .register, 0x2A, .registers⟩
  | sltu => ⟨"sltu", .register, 0x2B, .registers⟩
  | sll => ⟨"sll", .register, 0x00, .shift⟩
  | srl => ⟨"srl", .register, 0x02, .shift⟩
  | sub => ⟨"sub", .register, 0x22, .registers⟩
  | subu => ⟨"subu", .register, 0x23, .registers⟩
  | addi => ⟨"addi", .immediate, 0x08, .immediate⟩
  | addiu => ⟨"addiu", .immediate, 0x09, .immediate⟩
  | andi => ⟨"andi", .immediate, 0x0C, .immediate⟩
  | beq => ⟨"beq", .immediate, 0x04, .branch⟩
  | bne => ⟨"bne", .immediate, 0x05, .branch⟩
  | lbu => ⟨"lbu", .immediate, 0x24, .memory⟩
  | lhu => ⟨"lhu", .immediate, 0x25, .memory⟩
  | ll => ⟨"ll", .immediate, 0x30, .memory⟩
  | lui => ⟨"lui", .immediate, 0x0F, .upper⟩
  | lw => ⟨"lw", .immediate, 0x23, .memory⟩
  | ori => ⟨"ori", .immediate, 0x0D, .immediate⟩
  | slti => ⟨"slti", .immediate, 0x0A, .immediate⟩
  | sltiu => ⟨"sltiu", .immediate, 0x0B, .immediate⟩
  | sb => ⟨"sb", .immediate, 0x28, .memory⟩
  | sc => ⟨"sc", .immediate, 0x38, .memory⟩
  | sh => ⟨"sh", .immediate, 0x29, .memory⟩
  | sw => ⟨"sw", .immediate, 0x2B, .memory⟩

/-- The name of an operation in assembly. -/
def mnemonic (operation : Operation) : String := operation.encoding.mnemonic

/-- The format of the words of an operation. -/
def format (operation : Operation) : Format := operation.encoding.format

/-- The code that selects an operation within its format. -/
def code (operation : Operation) : UInt8 := operation.encoding.code

/-- How the operands of an operation are written. -/
def layout (operation : Operation) : OperandLayout := operation.encoding.layout

/-- Whether an operation is a conditional branch. -/
def isBranch : Operation → Bool
  | beq | bne => true
  | _ => false

end Operation

/-! ## Look-up by code -/

namespace Format

/-- The operations of a format, in the order of the instruction tables. -/
def operations : Format → List Operation
  | register =>
    [.add, .addu, .and, .nor, .or, .slt, .sltu, .sll, .srl, .sub, .subu]
  | immediate =>
    [.addi, .addiu, .andi, .beq, .bne, .lbu, .lhu, .ll, .lui, .lw, .ori, .slti, .sltiu,
     .sb, .sc, .sh, .sw]

/-- The operation of a format that a code selects. -/
def operation (format : Format) (code : UInt8) : Except Refusal Operation :=
  match format.operations.find? (·.code == code) with
  | some operation => .ok operation
  | none => .error (.unknownCode format code)

/-- The format of the words with a given opcode: zero is the register format, one to three
belong to neither, all others are the immediate format. -/
def ofOpcode (opcode : UInt8) : Except Refusal Format :=
  if opcode = 0 then .ok .register
  else if opcode ≤ 3 then .error (.unsupportedOpcode opcode)
  else .ok .immediate

end Format

/-- The mnemonic that an opcode and, in the register format, a function code select.  Without
its function code a word of the register format selects nothing. -/
def Operation.mnemonicOf (opcode : UInt8) (funct : Option UInt8) : Except Refusal String := do
  match ← Format.ofOpcode opcode, funct with
  | .register, some funct => return (← Format.register.operation funct).mnemonic
  | .register, none => throw (.unknownCode .register opcode)
  | .immediate, _ => return (← Format.immediate.operation opcode).mnemonic

end MipsListing
