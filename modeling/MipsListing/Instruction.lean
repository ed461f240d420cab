/-
# Instructions

A word at its position in a program, decoded to an operation, its text, and the position to
which it branches.  The text is a mnemonic with its operands in the order of the operand layout:
registers by their names, numbers, and the name of the place to which a branch leads.
-/
import MipsListing.Operation
import MipsListing.Word

namespace MipsListing

/-! ## Registers -/

/-- One of the thirty-two general registers, by its number. -/
abbrev Register := Fin 32

namespace Register

/-- The names of the registers, in the order of their numbers. -/
def names : List String :=
  ["$zero", "$at", "$v0", "$v1", "$a0", "$a1", "$a2", "$a3",
   "$t0", "$t1", "$t2", "$t3", "$t4", "$t5", "$t6", "$t7",
   "$s0", "$s1", "$s2", "$s3", "$s4", "$s5", "$s6", "$s7",
   "$t8", "$t9", "$k0", "$k1", "$gp", "$sp", "$fp", "$ra"]

/-- The name of a register. -/
def name (register : Register) : String :=
  names.get ⟨register.val, register.isLt⟩

/-- The register that a code selects. -/
def ofCode? (code : Nat) : Option Register :=
  if h : code < 32 then some ⟨code, h⟩ else none

/-- The name of the register that a code selects. -/
def nameOfCode (code : Nat) : Except Refusal String :=
  match ofCode? code with
  | some register => .ok register.name
  | none => .error (.unknownRegister code)

/-- The name of the register whose code is written with exactly two hexadecimal digits. -/
def nameOfHex (text : String) : Except Refusal String :=
  if text.utf8ByteSize ≠ 2 then .error (.malformed text .notTwoHexDigits)
  else match Radix.hexadecimal.read? text.toList with
    | none => .error (.malformed text .notTwoHexDigits)
    | some code => nameOfCode code

end Register

/-! ## Branches -/

/-- The name of the place at a position, after its byte address: four bytes to an instruction,
in four hexadecimal digits.  An address that no machine word can hold is refused under the
number of the position. -/
def labelName (index : Nat) : Except Refusal String :=
  let address := index * 4
  if address < UInt64.size then do
    return "Addr_" ++ (← Radix.hexadecimal.fieldOf address 4)
  else .error (.fieldTooWide (toString index) (.digits .hexadecimal) 4)

/-- The position to which a branch at `index` leads over `offset` instructions in a program of
`size` instructions, counted from the instruction behind the branch.  The position behind the
last instruction counts as inside.  Positions are signed 64-bit numbers here, so the upper half
of the 64-bit numbers stands for negative ones. -/
def branchDestination (index : Nat) (offset : Int) (size : Nat) : Except Refusal Nat :=
  let target := twosComplement index 64 + 1 + offset
  if 0 ≤ target ∧ target ≤ size then .ok target.toNat else .error (.branchOutOfRange target)

/-! ## Assembly text

Registers are named in the order in which they are written, so the first bad one is reported. -/

/-- A mnemonic with its operands behind it. -/
def instructionText (mnemonic : String) (operands : List String) : String :=
  mnemonic ++ " " ++ ", ".intercalate operands

namespace RegisterFields

/-- The operands of an instruction of the register format.  A shift shows its amount as a
number; every other layout shows three registers. -/
def operands (fields : RegisterFields) : OperandLayout → Except Refusal (List String)
  | .shift => do
    let rd ← Register.nameOfCode fields.rd.toNat
    let rt ← Register.nameOfCode fields.rt.toNat
    return [rd, rt, toString fields.shamt.toNat]
  | _ => do
    let rd ← Register.nameOfCode fields.rd.toNat
    let rs ← Register.nameOfCode fields.rs.toNat
    let rt ← Register.nameOfCode fields.rt.toNat
    return [rd, rs, rt]

/-- The text of an instruction of the register format. -/
def text (fields : RegisterFields) (mnemonic : String) (layout : OperandLayout) :
    Except Refusal String := do
  return instructionText mnemonic (← fields.operands layout)

end RegisterFields

namespace ImmediateFields

/-- The operands of an instruction of the immediate format at position `index` of a program of
`size` instructions, and the position it branches to if it is a branch. -/
def operands (fields : ImmediateFields) (index size : Nat) :
    OperandLayout → Except Refusal (List String × Option Nat)
  | .memory => do
    let rt ← Register.nameOfCode fields.rt.toNat
    let rs ← Register.nameOfCode fields.rs.toNat
    return ([rt, toString fields.imm.toInt ++ "(" ++ rs ++ ")"], none)
  | .upper => do
    let rt ← Register.nameOfCode fields.rt.toNat
    return ([rt, toString fields.imm.toInt], none)
  | .branch => do
    let target ← branchDestination index fields.imm.toInt size
    let rs ← Register.nameOfCode fields.rs.toNat
    let rt ← Register.nameOfCode fields.rt.toNat
    let label ← labelName target
    return ([rs, rt, label], some target)
  | _ => do
    let rt ← Register.nameOfCode fields.rt.toNat
    let rs ← Register.nameOfCode fields.rs.toNat
    return ([rt, rs, toString fields.imm.toInt], none)

/-- The text of an instruction of the immediate format, with the position it branches to. -/
def text (fields : ImmediateFields) (mnemonic : String) (layout : OperandLayout)
    (index size : Nat) : Except Refusal (String × Option Nat) := do
  let (operands, target) ← fields.operands index size layout
  return (instructionText mnemonic operands, target)

end ImmediateFields

/-! ## Decoded words -/

/-- A decoded word. -/
structure Instruction where
  /-- The operation that the word selects. -/
  operation : Operation
  /-- The format by which the word was taken apart. -/
  format : Format
  /-- The instruction in assembly, without indentation. -/
  text : String
  /-- The position in the program to which a branch leads. -/
  target : Option Nat
  deriving DecidableEq, Repr

/-- A way to decode a word, given its position and the size of the program. -/
abbrev Decoder := (word : Word) → (index size : Nat) → Except Refusal Instruction

namespace Instruction

/-- Decodes a word by the register format, whatever its opcode. -/
def ofRegisterWord (word : Word) : Except Refusal Instruction := do
  let fields := word.registerFields
  let operation ← Format.register.operation fields.funct
  let text ← fields.text operation.mnemonic operation.layout
  return { operation, format := .register, text, target := none }

/-- Decodes a word by the immediate format, whatever its opcode. -/
def ofImmediateWord (word : Word) (index size : Nat) : Except Refusal Instruction := do
  let fields := word.immediateFields
  let operation ← Format.immediate.operation fields.opcode
  let (text, target) ← fields.text operation.mnemonic operation.layout index size
  return { operation, format := .immediate, text, target }

/-- Decodes a word by the format that its opcode calls for. -/
def ofWord : Decoder := fun word index size => do
  match ← Format.ofOpcode word.opcode with
  | .register => ofRegisterWord word
  | .immediate => ofImmediateWord word index size

end Instruction

end MipsListing
