/-
# Two's complement

The low bits of a number, read in two's complement, are the one number in the signed range that
agrees with it in these bits.  All that is known of the reading follows from this: it sees no other
bits, it leaves alone what is in the range already, and a machine computes it by two shifts, the
first of which drops the bits that are not read and the second of which brings the sign down.

* `SignedResidue` : the number in the signed range that agrees with a value in the low bits;
* `twosComplement_eq_iff` : the reading is that number;
* `signExtend` : the reading by shifts in a machine word;
* `twosComplement_canonical` : the reading of a machine word at every width.
-/
import MipsListing.Numeral
import Mathlib

namespace MipsListing

/-! ## Signed residues -/

/-- A number that `width` bits can stand for, the highest of which is the sign. -/
def InSignedRange (width : ℕ) (number : ℤ) : Prop :=
  -2 ^ (width - 1) ≤ number ∧ number < 2 ^ (width - 1)

instance (width : ℕ) (number : ℤ) : Decidable (InSignedRange width number) :=
  inferInstanceAs (Decidable (_ ∧ _))

/-- A number in the signed range that agrees with a value in the lowest `width` bits. -/
structure SignedResidue (width : ℕ) (value number : ℤ) : Prop where
  inRange : InSignedRange width number
  modEq : number ≡ value [ZMOD 2 ^ width]

instance (width : ℕ) (value number : ℤ) : Decidable (SignedResidue width value number) :=
  decidable_of_iff (InSignedRange width number ∧ number ≡ value [ZMOD 2 ^ width])
    ⟨fun h => ⟨h.1, h.2⟩, fun h => ⟨h.inRange, h.modEq⟩⟩

/-- No two numbers in the signed range agree in all bits of the width. -/
theorem SignedResidue.unique {width : ℕ} {value a b : ℤ} (hwidth : 0 < width)
    (ha : SignedResidue width value a) (hb : SignedResidue width value b) : a = b := by
  obtain ⟨⟨ha_le, ha_lt⟩, ha_mod⟩ := ha
  obtain ⟨⟨hb_le, hb_lt⟩, hb_mod⟩ := hb
  have hpower : (2 : ℤ) ^ width = 2 * 2 ^ (width - 1) := by
    rw [← pow_succ', Nat.sub_add_cancel hwidth]
  have hdvd : (2 : ℤ) ^ width ∣ b - a := (ha_mod.trans hb_mod.symm).dvd
  have hsmall : |b - a| < 2 ^ width := by
    rw [hpower, abs_lt]
    constructor <;> linarith
  exact (sub_eq_zero.mp (Int.eq_zero_of_abs_lt_dvd hdvd hsmall)).symm

/-- Bits read as a signed number agree with the bits read as an unsigned one. -/
theorem toInt_modEq {width : ℕ} (bits : BitVec width) :
    bits.toInt ≡ bits.toNat [ZMOD 2 ^ width] := by
  have h : bits.toInt % (2 ^ width : ℕ) = bits.toNat % (2 ^ width : ℕ) := by
    rw [BitVec.toInt_eq_toNat_bmod, Int.bmod_emod]
  rw [Int.ModEq]
  exact_mod_cast h

/-! ## The reading -/

/-- The number of bits that are read where `bits` are asked for: at least one, and no more than a
machine word has. -/
def signWidth (bits : ℕ) : ℕ := max 1 (min bits 64)

theorem signWidth_pos (bits : ℕ) : 0 < signWidth bits := le_max_left 1 _

theorem signWidth_le (bits : ℕ) : signWidth bits ≤ 64 := by
  rw [signWidth]
  omega

theorem signWidth_of_le {bits : ℕ} (hpos : 0 < bits) (hmax : bits ≤ 64) :
    signWidth bits = bits := by
  rw [signWidth]
  omega

/-- The reading is in the signed range and agrees with the value in the bits that are read. -/
theorem signedResidue_twosComplement (value bits : ℕ) :
    SignedResidue (signWidth bits) value (twosComplement value bits) where
  inRange := ⟨BitVec.le_toInt _, BitVec.toInt_lt⟩
  modEq := by
    have hcut : ((BitVec.ofNat (signWidth bits) value).toNat : ℤ) ≡ value
        [ZMOD 2 ^ signWidth bits] := by
      rw [BitVec.toNat_ofNat]
      push_cast
      exact Int.mod_modEq _ _
    exact (toInt_modEq _).trans hcut

/-- **The reading is the signed residue**, which is only one. -/
theorem twosComplement_eq_iff (value bits : ℕ) (number : ℤ) :
    twosComplement value bits = number ↔ SignedResidue (signWidth bits) value number := by
  constructor
  · rintro rfl
    exact signedResidue_twosComplement value bits
  · exact (signedResidue_twosComplement value bits).unique (signWidth_pos bits)

/-- A number in the signed range is read as itself. -/
theorem twosComplement_of_inRange (value bits : ℕ)
    (h : InSignedRange (signWidth bits) value) : twosComplement value bits = value :=
  (twosComplement_eq_iff value bits value).mpr ⟨h, rfl⟩

/-- The reading sees the bits of its width and no others. -/
theorem twosComplement_eq_twosComplement_iff (a b bits : ℕ) :
    twosComplement a bits = twosComplement b bits ↔
      a % 2 ^ signWidth bits = b % 2 ^ signWidth bits := by
  have ha := (signedResidue_twosComplement a bits).modEq
  have hb := signedResidue_twosComplement b bits
  have hcast : a % 2 ^ signWidth bits = b % 2 ^ signWidth bits ↔
      (a : ℤ) ≡ b [ZMOD 2 ^ signWidth bits] := by
    rw [← Nat.ModEq, ← Int.natCast_modEq_iff]
    push_cast
    rfl
  rw [hcast]
  constructor
  · intro h
    rw [h] at ha
    exact ha.symm.trans hb.modEq
  · intro h
    rw [twosComplement_eq_iff]
    exact ⟨hb.inRange, hb.modEq.trans h.symm⟩

/-- A machine word stands for an integer up to multiples of the number of machine words. -/
theorem toNat_ofInt_modEq (number : ℤ) :
    ((UInt64.ofInt number).toNat : ℤ) ≡ number [ZMOD 2 ^ 64] := by
  have hcut : ((UInt64.ofInt number).toNat : ℤ) = number % 2 ^ 64 := by
    rw [UInt64.ofInt, UInt64.toNat_ofNat']
    omega
  rw [hcut]
  exact Int.mod_modEq _ _

/-- A number in the signed range is read back from the machine word that stands for it. -/
theorem twosComplement_ofInt (number : ℤ) (bits : ℕ)
    (h : InSignedRange (signWidth bits) number) :
    twosComplement (UInt64.ofInt number).toNat bits = number := by
  have hdvd : (2 : ℤ) ^ signWidth bits ∣ 2 ^ 64 := pow_dvd_pow 2 (signWidth_le bits)
  rw [twosComplement_eq_iff]
  exact ⟨h, ((toNat_ofInt_modEq number).of_dvd hdvd).symm⟩

/-! ## Shifts -/

/-- Sign extension of a machine word.  The first shift drops the bits that are not read and takes
the sign to the highest place, from where the second one fills up with copies of it. -/
def signExtend (value : UInt64) (bits : ℕ) : BitVec 64 :=
  (value.toBitVec <<< (64 - signWidth bits)).sshiftRight (64 - signWidth bits)

/-- The first shift gives the signed residue of a multiple, as the bits that leave the word count
for a multiple of the number of words. -/
theorem signedResidue_shiftLeft (word : BitVec 64) (shift : ℕ) :
    SignedResidue 64 (2 ^ shift * word.toNat) (word <<< shift).toInt where
  inRange := ⟨BitVec.le_toInt _, BitVec.toInt_lt⟩
  modEq := by
    refine (toInt_modEq _).trans ?_
    rw [BitVec.toNat_shiftLeft, Nat.shiftLeft_eq]
    push_cast
    rw [mul_comm]
    exact Int.mod_modEq _ _

/-- The second shift gives the signed residue of the value itself, in so many bits less. -/
theorem SignedResidue.ediv {shift width : ℕ} {value moved : ℤ} (hwidth : 0 < width)
    (h : SignedResidue (shift + width) (2 ^ shift * value) moved) :
    SignedResidue width value (moved / 2 ^ shift) := by
  obtain ⟨⟨hle, hlt⟩, hmod⟩ := h
  have hunit : (0 : ℤ) < 2 ^ shift := by positivity
  have hhalf : (2 : ℤ) ^ (shift + width - 1) = 2 ^ shift * 2 ^ (width - 1) := by
    rw [← pow_add, Nat.add_sub_assoc hwidth]
  rw [pow_add] at hmod
  rw [hhalf] at hle hlt
  -- what was moved is a multiple of the unit to which it was moved, so moving it back loses nothing
  obtain ⟨number, rfl⟩ : (2 : ℤ) ^ shift ∣ moved :=
    (hmod.of_dvd (dvd_mul_right _ _)).dvd_iff.mpr (dvd_mul_right _ _)
  rw [← mul_neg] at hle
  rw [Int.mul_ediv_cancel_left _ hunit.ne']
  refine ⟨⟨?_, ?_⟩, ?_⟩
  · exact le_of_mul_le_mul_left hle hunit
  · exact lt_of_mul_lt_mul_left hlt hunit.le
  · exact Int.ModEq.mul_left_cancel' hunit.ne' hmod

/-- Two shifts give the signed residue. -/
theorem signedResidue_signExtend (value : UInt64) (bits : ℕ) :
    SignedResidue (signWidth bits) value.toNat (signExtend value bits).toInt := by
  have hmoved : SignedResidue (64 - signWidth bits + signWidth bits)
      (2 ^ (64 - signWidth bits) * value.toNat)
      (value.toBitVec <<< (64 - signWidth bits)).toInt := by
    rw [Nat.sub_add_cancel (signWidth_le bits)]
    exact signedResidue_shiftLeft value.toBitVec _
  rw [signExtend, BitVec.toInt_sshiftRight, Int.shiftRight_eq_div_pow]
  push_cast
  exact hmoved.ediv (signWidth_pos bits)

/-- Two shifts give the reading. -/
theorem toInt_signExtend (value : UInt64) (bits : ℕ) :
    (signExtend value bits).toInt = twosComplement value.toNat bits :=
  ((twosComplement_eq_iff _ _ _).mpr (signedResidue_signExtend value bits)).symm

/-! ## All widths -/

/-- **Two's complement.**  At every width, which is brought into the range from 1 to 64 first, a
machine word is read as the one number in the signed range that agrees with it in the bits of the
width.  So words are read alike exactly if they agree in these bits, numbers in the range are read
as themselves, also from the machine words that stand for them, and reading again changes nothing.
Two shifts in a machine word compute the same. -/
theorem twosComplement_canonical (value : UInt64) (bits : UInt32) :
    (∀ number : ℤ, SignedResidue (signWidth bits.toNat) value.toNat number ↔
      number = twosComplement value.toNat bits.toNat) ∧
    (∀ other : UInt64,
      twosComplement other.toNat bits.toNat = twosComplement value.toNat bits.toNat ↔
        other.toNat % 2 ^ signWidth bits.toNat = value.toNat % 2 ^ signWidth bits.toNat) ∧
    (InSignedRange (signWidth bits.toNat) value.toNat →
      twosComplement value.toNat bits.toNat = value.toNat) ∧
    (∀ number : ℤ, InSignedRange (signWidth bits.toNat) number →
      twosComplement (UInt64.ofInt number).toNat bits.toNat = number) ∧
    twosComplement (UInt64.ofInt (twosComplement value.toNat bits.toNat)).toNat bits.toNat
      = twosComplement value.toNat bits.toNat ∧
    (signExtend value bits.toNat).toInt = twosComplement value.toNat bits.toNat := by
  have hresidue := signedResidue_twosComplement value.toNat bits.toNat
  refine ⟨fun number => ?_, fun other => ?_, fun h => ?_, fun number h => ?_, ?_, ?_⟩
  · rw [← twosComplement_eq_iff, eq_comm]
  · exact twosComplement_eq_twosComplement_iff other.toNat value.toNat bits.toNat
  · exact twosComplement_of_inRange value.toNat bits.toNat h
  · exact twosComplement_ofInt number bits.toNat h
  · exact twosComplement_ofInt _ bits.toNat hresidue.inRange
  · exact toInt_signExtend value bits.toNat

/-- The least number of sixteen bits, whatever stands above them; no bits at all, of which one is
read; and more bits than a machine word has. -/
theorem twosComplement_canonical_of_ends :
    twosComplement (0xABCD8000 : UInt64).toNat (16 : UInt32).toNat = -0x8000 ∧
      twosComplement (0x8000 : UInt64).toNat (16 : UInt32).toNat
        = twosComplement (0xABCD8000 : UInt64).toNat (16 : UInt32).toNat ∧
      twosComplement (0x7FFF : UInt64).toNat (16 : UInt32).toNat = 0x7FFF ∧
      twosComplement (UInt64.ofInt (-1)).toNat (0 : UInt32).toNat = -1 ∧
      twosComplement (UInt64.ofInt (-5)).toNat (100 : UInt32).toNat = -5 := by
  obtain ⟨hresidue, hlow, -⟩ := twosComplement_canonical 0xABCD8000 16
  obtain ⟨-, -, hsame, -⟩ := twosComplement_canonical 0x7FFF 16
  obtain ⟨-, -, -, hone, -⟩ := twosComplement_canonical 1 0
  obtain ⟨-, -, -, hfull, -⟩ := twosComplement_canonical 0 100
  refine ⟨?_, ?_, ?_, ?_, ?_⟩
  · exact ((hresidue (-0x8000)).mp (by decide)).symm
  · exact (hlow 0x8000).mpr (by decide)
  · exact hsame (by decide)
  · exact hone (-1) (by decide)
  · exact hfull (-5) (by decide)

end MipsListing
