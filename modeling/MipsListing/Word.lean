/-
# Instruction words

A word of thirty-two bits: its bit ranges, its text forms, and the fields into which each of the two
formats takes it apart and from which it is put together.  Bits are numbered from the most
significant one, which is bit zero, so that a range reads in the order in which the binary text
is written.  A program is a list of words; its text form has one word on each line.
-/
import MipsListing.DigitField

namespace MipsListing

/-- An instruction word. -/
abbrev Word := BitVec 32

/-! ## Bit ranges -/

/-- A range of bits of a word: from `start` up to, but without, `stop`. -/
structure BitRange where
  /-- The first bit of the range. -/
  start : Nat
  /-- The first bit behind the range. -/
  stop : Nat
  /-- A range has at least one bit. -/
  start_lt_stop : start < stop := by decide
  /-- A range ends with the word at the latest. -/
  stop_le : stop ≤ 32 := by decide

namespace BitRange

/-- The range with the given ends, if these make a range. -/
def ofEnds? (start stop : Nat) : Option BitRange :=
  if h : start < stop ∧ stop ≤ 32 then some ⟨start, stop, h.1, h.2⟩ else none

/-- The number of bits in a range. -/
def size (range : BitRange) : Nat := range.stop - range.start

/-- The opcode. -/
def opcode : BitRange := { start := 0, stop := 6 }

/-- The first source register. -/
def rs : BitRange := { start := 6, stop := 11 }

/-- The second source register. -/
def rt : BitRange := { start := 11, stop := 16 }

/-- The destination register of the register format. -/
def rd : BitRange := { start := 16, stop := 21 }

/-- The shift amount of the register format. -/
def shamt : BitRange := { start := 21, stop := 26 }

/-- The function code of the register format. -/
def funct : BitRange := { start := 26, stop := 32 }

/-- The immediate of the immediate format. -/
def imm : BitRange := { start := 16, stop := 32 }

end BitRange

namespace Word

/-- The unsigned value of the bits in a range. -/
def field (word : Word) (range : BitRange) : Nat :=
  (word.extractLsb' (32 - range.stop) range.size).toNat

/-- The opcode of a word. -/
def opcode (word : Word) : UInt8 := UInt8.ofNat (word.field .opcode)

/-! ## Text forms -/

/-- A word as 32 binary digits. -/
def toBinary (word : Word) : String :=
  String.ofList (Radix.binary.writePadded 32 word.toNat)

/-- A word as 8 uppercase hexadecimal digits. -/
def toHex (word : Word) : String :=
  String.ofList (Radix.hexadecimal.writePadded 8 word.toNat)

/-- A word as a diagnostic shows it: a name, and 8 lowercase hexadecimal digits. -/
def describe (word : Word) : String :=
  "Instruction(0x" ++ String.ofList ((Nat.toDigits 16 word.toNat).leftpad 8 '0') ++ ")"

/-- The word that a text of 32 binary digits stands for. -/
def ofBinary (text : String) : Except Refusal Word :=
  if text.utf8ByteSize ≠ 32 then .error (.malformed text .notWordLength)
  else match Radix.binary.read? text.toList with
    | none => .error (.malformed text .notBits)
    | some value => .ok (BitVec.ofNat 32 value)

/-- The word that a text of hexadecimal digits stands for, however many zeros it begins with. -/
def ofHex (text : String) : Except Refusal Word := do
  ofBinary (← Radix.hexadecimal.convertField .binary text 32)

end Word

/-! ## Fields

Codes are bytes and immediates signed 32-bit numbers, so a record can also hold fields that no word
has.  Fields that fit their bit ranges are read back unchanged from the word that holds them. -/

/-- The fields of the register format. -/
structure RegisterFields where
  opcode : UInt8
  rs : UInt8
  rt : UInt8
  rd : UInt8
  shamt : UInt8
  funct : UInt8
  deriving DecidableEq, Repr

/-- The fields of the immediate format. -/
structure ImmediateFields where
  opcode : UInt8
  rs : UInt8
  rt : UInt8
  imm : Int32
  deriving DecidableEq, Repr

namespace Word

/-- A word taken apart by the register format. -/
def registerFields (word : Word) : RegisterFields where
  opcode := word.opcode
  rs := UInt8.ofNat (word.field .rs)
  rt := UInt8.ofNat (word.field .rt)
  rd := UInt8.ofNat (word.field .rd)
  shamt := UInt8.ofNat (word.field .shamt)
  funct := UInt8.ofNat (word.field .funct)

/-- A word taken apart by the immediate format; the immediate is sign extended from 16 bits. -/
def immediateFields (word : Word) : ImmediateFields where
  opcode := word.opcode
  rs := UInt8.ofNat (word.field .rs)
  rt := UInt8.ofNat (word.field .rt)
  imm := Int32.ofInt (twosComplement (word.field .imm) 16)

end Word

/-- The word that holds the fields of the register format, each counted at the place value of
its last bit. -/
def RegisterFields.pack (fields : RegisterFields) : Word :=
  BitVec.ofNat 32
    (fields.opcode.toNat * 0x4000000 + fields.rs.toNat * 0x200000 + fields.rt.toNat * 0x10000
      + fields.rd.toNat * 0x800 + fields.shamt.toNat * 0x40 + fields.funct.toNat)

/-- The word that holds the fields of the immediate format; of the immediate only the low
16 bits are kept. -/
def ImmediateFields.pack (fields : ImmediateFields) : Word :=
  BitVec.ofNat 32
    (fields.opcode.toNat * 0x4000000 + fields.rs.toNat * 0x200000 + fields.rt.toNat * 0x10000
      + (fields.imm.toInt % 0x10000).toNat)

/-! ## Object text

The text form of a program: one hexadecimal word on each physical line, between optional blanks
and behind an optional `0x` or `0X`. -/

namespace ObjectText

/-- A line without the mark `0x` or `0X` in front. -/
def stripMark : List Char → List Char
  | '0' :: 'x' :: digits => digits
  | '0' :: 'X' :: digits => digits
  | digits => digits

/-- The word on a physical line of the given number, counted from zero.  A refusal shows the
line without its blanks, but with its mark. -/
def parseLine (line : List Char) (index : Nat) : Except LineRefusal Word :=
  let content := Text.trim line
  (Word.ofHex (String.ofList (stripMark content))).mapError fun cause =>
    { line := index + 1, word := String.ofList content, cause }

/-- The words of an object text, up to the first line that holds none. -/
def parse (text : String) : Except LineRefusal (List Word) :=
  (Text.physicalLines text.toList).zipIdx.mapM fun (line, index) => parseLine line index

end ObjectText

end MipsListing
