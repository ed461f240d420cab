/-
# Refusals

Why a piece of input, or a single instruction of one of the two formats, is refused, and how a
refusal is pinned to the line of the program in which it arose.  Each cause has its own
constructor; the wording is in one function for each type.  Outcomes can be compared, so a
statement about a given input can be decided.
-/
import MipsListing.Numeral
import MipsListing.Text

namespace MipsListing

/-! ## Instruction formats

The two layouts of an instruction word that the library knows: two source registers and a
destination, selected by a function code, or two registers and an immediate, selected by
the opcode. -/

/-- How the bits of an instruction word are divided. -/
inductive Format where
  | register
  | immediate
  deriving DecidableEq, Repr

namespace Format

/-- The letter by which the instruction set names a format. -/
def letter : Format → String
  | register => "R"
  | immediate => "I"

/-- The name of the field that selects the operation. -/
def selector : Format → String
  | register => "function code"
  | immediate => "opcode"

end Format

/-! ## Comparing outcomes -/

/-- Outcomes are equal if both are values, or both errors, and these are equal. -/
instance decidableEqOutcome {ε α : Type} [DecidableEq ε] [DecidableEq α] :
    DecidableEq (Except ε α)
  | .ok a, .ok b => decidable_of_iff (a = b) (by simp)
  | .error d, .error e => decidable_of_iff (d = e) (by simp)
  | .ok _, .error _ => isFalse (by simp)
  | .error _, .ok _ => isFalse (by simp)

/-! ## Malformed text -/

/-- What is wrong with a text that should have been a field or a word. -/
inductive Malformation where
  /-- No digits at all. -/
  | empty
  /-- A character that is no digit of the radix. -/
  | notDigits (radix : Radix)
  /-- Not a register code of exactly two hexadecimal digits. -/
  | notTwoHexDigits
  /-- Not as long as an instruction word. -/
  | notWordLength
  /-- As long as a word, but not all bits. -/
  | notBits
  /-- A reason that a decoder of another instruction set gives. -/
  | other (reason : String)
  deriving DecidableEq, Repr

/-- The wording of a malformation. -/
def Malformation.message : Malformation → String
  | empty => "empty field"
  | notDigits .binary => "expected binary digits"
  | notDigits .hexadecimal => "expected hex digits"
  | notTwoHexDigits => "expected two hex digits"
  | notWordLength => "instruction must be exactly 32 bits"
  | notBits => "instruction may only contain '0' and '1'"
  | other reason => reason

/-! ## Fields with a limit -/

/-- The fields whose capacity a value can exceed. -/
inductive FieldKind where
  /-- A field of digits; its width counts digits. -/
  | digits (radix : Radix)
  /-- An unsigned machine number; its width counts bits. -/
  | unsigned
  /-- A signed machine number; its width counts bits. -/
  | signed
  /-- A field for which a decoder of another instruction set has a name. -/
  | other (name : String)
  deriving DecidableEq, Repr

/-- The name of a kind of field. -/
def FieldKind.name : FieldKind → String
  | digits .binary => "binary"
  | digits .hexadecimal => "hex"
  | unsigned => "u64"
  | signed => "i64"
  | other name => name

/-! ## Refusals of a single instruction -/

/-- Why a field, a code or an instruction is refused. -/
inductive Refusal where
  /-- A text is not a well-formed field. -/
  | malformed (text : String) (reason : Malformation)
  /-- An opcode belongs to neither format. -/
  | unsupportedOpcode (opcode : UInt8)
  /-- A function code or an opcode selects no operation. -/
  | unknownCode (format : Format) (code : UInt8)
  /-- A code names no register. -/
  | unknownRegister (code : Nat)
  /-- A value does not fit the width of its field. -/
  | fieldTooWide (value : String) (field : FieldKind) (width : Nat)
  /-- A branch leads out of the program. -/
  | branchOutOfRange (target : Int)
  /-- A width is greater than that of any field. -/
  | widthTooLarge (width : Nat)
  deriving DecidableEq, Repr

namespace Refusal

/-- A code as at least two uppercase hexadecimal digits. -/
def hexCode (code : Nat) : String :=
  String.ofList (Radix.hexadecimal.writePadded 2 code)

/-- The wording of a refusal. -/
def message : Refusal → String
  | malformed text reason => "malformed input " ++ Text.quote text ++ ": " ++ reason.message
  | unsupportedOpcode opcode => "unsupported opcode " ++ hexCode opcode.toNat
  | unknownCode format code =>
    format.selector ++ " " ++ hexCode code.toNat ++ " is not in range for " ++ format.letter
      ++ "-type instruction"
  | unknownRegister code => "register code " ++ hexCode code ++ " not defined"
  | fieldTooWide value field width =>
    "value " ++ value ++ " too large for " ++ field.name ++ " field of width " ++ toString width
  | branchOutOfRange target => "branch target " ++ toString target ++ " lies outside the program"
  | widthTooLarge width => "width " ++ toString width ++ " is larger than that of any field"

end Refusal

/-! ## Refusals of a program -/

/-- A refusal pinned to a line of the program. -/
structure LineRefusal where
  /-- The number of the line, counted from one. -/
  line : Nat
  /-- The word in hexadecimal, or the text of the line if it never became a word. -/
  word : String
  /-- Why the line is refused. -/
  cause : Refusal
  deriving DecidableEq, Repr

/-- The wording of a refusal with its line. -/
def LineRefusal.message (error : LineRefusal) : String :=
  "cannot disassemble " ++ error.word ++ " at line number " ++ toString error.line ++ ": "
    ++ error.cause.message

end MipsListing
