/-
# Digit fields

Numbers in fields of binary or hexadecimal digits.  A width counts digits: a binary field of
width 32 has exactly 32 characters.  A value that needs more digits is refused rather than cut.
-/
import MipsListing.Refusal

namespace MipsListing

namespace Radix

/-! ## Reading -/

/-- The number that a field stands for: at least one digit, and nothing but digits. -/
def readField (radix : Radix) (text : String) : Except Refusal Nat :=
  if text.toList = [] then .error (.malformed text .empty)
  else match radix.read? text.toList with
    | none => .error (.malformed text (.notDigits radix))
    | some value => .ok value

/-- The number that a field stands for, provided that a machine word can hold it. -/
def readMachineField (radix : Radix) (text : String) : Except Refusal Nat := do
  let value ← radix.readField text
  if value < UInt64.size then return value else throw (.fieldTooWide text .unsigned 64)

/-! ## Writing -/

/-- The greatest width of a field. -/
def maxWidth : Nat := 65535

/-- A number as a field of exactly `width` digits; `source` is how a refusal names it. -/
def writeField (radix : Radix) (source : String) (width value : Nat) : Except Refusal String :=
  if maxWidth < width then .error (.widthTooLarge width)
  else
    let digits := radix.writePadded width value
    if width < digits.length then .error (.fieldTooWide source (.digits radix) width)
    else .ok (String.ofList digits)

/-- A number as a field of exactly `width` digits. -/
def fieldOf (radix : Radix) (value width : Nat) : Except Refusal String :=
  radix.writeField (toString value) width value

/-- A field of one radix as a field of `width` digits of another. -/
def convertField (source target : Radix) (text : String) (width : Nat) :
    Except Refusal String := do
  target.writeField text width (← source.readMachineField text)

end Radix

/-! ## Binary fields as signed numbers -/

/-- The number that a binary field of at most 64 digits stands for. -/
def bitsValue (text : String) : Except Refusal Nat := do
  let value ← Radix.binary.readField text
  if 64 < text.length then throw (.fieldTooWide text .signed 64) else return value

/-- The number that a binary field stands for, provided that a signed machine word can hold
it. -/
def unsignedBits (text : String) : Except Refusal Nat := do
  let value ← bitsValue text
  if value < UInt64.size / 2 then return value else throw (.fieldTooWide text .signed 63)

/-- The number that a binary field stands for in two's complement over its own length. -/
def signedBits (text : String) : Except Refusal Int := do
  return twosComplement (← bitsValue text) text.length

end MipsListing
