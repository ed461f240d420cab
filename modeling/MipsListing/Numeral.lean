/-
# Numerals

Positional writing of natural numbers in binary and hexadecimal, most significant digit
first, and the signed reading of the low bits of a number.
-/

namespace MipsListing

/-! ## Radix and digits -/

/-- The two radices in which machine words are written. -/
inductive Radix where
  | binary
  | hexadecimal
  deriving DecidableEq, Repr

/-- What a character of `0`–`9`, `a`–`f` or `A`–`F` counts as a digit. -/
def digitValue? (c : Char) : Option Nat :=
  if '0' ≤ c ∧ c ≤ '9' then some (c.toNat - '0'.toNat)
  else if 'a' ≤ c ∧ c ≤ 'f' then some (c.toNat - 'a'.toNat + 10)
  else if 'A' ≤ c ∧ c ≤ 'F' then some (c.toNat - 'A'.toNat + 10)
  else none

namespace Radix

/-- The number of digits of a radix. -/
def base : Radix → Nat
  | binary => 2
  | hexadecimal => 16

/-- The value of a digit of this radix. -/
def digit? (radix : Radix) (c : Char) : Option Nat :=
  (digitValue? c).filter (· < radix.base)

/-! ## Reading -/

/-- The number that a list of digit values stands for. -/
def ofDigits (radix : Radix) (digits : List Nat) : Nat :=
  digits.foldl (fun value digit => radix.base * value + digit) 0

/-- The number that a text of digits stands for; the empty text stands for zero. -/
def read? (radix : Radix) (text : List Char) : Option Nat :=
  (text.mapM radix.digit?).map radix.ofDigits

/-! ## Writing -/

/-- The shortest numeral of a number, with uppercase letters; zero is written `0`. -/
def write (radix : Radix) (value : Nat) : List Char :=
  (Nat.toDigits radix.base value).map Char.toUpper

/-- The numeral of a number filled up with zeros in front to at least `width` digits. -/
def writePadded (radix : Radix) (width value : Nat) : List Char :=
  (radix.write value).leftpad width '0'

end Radix

/-! ## Two's complement -/

/-- The low `bits` bits of a number read as a signed number, where `bits` is first brought into
the range from 1 to 64. -/
def twosComplement (value bits : Nat) : Int :=
  (BitVec.ofNat (max 1 (min bits 64)) value).toInt

end MipsListing
