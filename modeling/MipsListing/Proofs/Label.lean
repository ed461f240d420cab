/-
# Places in a program

The name of a place is determined by its position and determines it, and a position has a name
exactly if its byte address has at most four hexadecimal digits.  A branch leads to a position
exactly if the sum that it asks for lies between zero and the size of the program.

* `labelName_eq_ok_iff`, `labelName_of_lt` : which positions have names;
* `labelText_injective` : different positions have different names;
* `exists_digits_labelText` : what a name shows;
* `branchDestination_of_small` : where a branch leads in a program of any size that fits memory.
-/
import MipsListing.Instruction
import MipsListing.Proofs.DigitField
import MipsListing.Proofs.SignExtension

namespace MipsListing

/-! ## Names -/

/-- The name of a position, whether or not four digits are enough for its address. -/
def labelText (index : ℕ) : String :=
  "Addr_" ++ String.ofList (Radix.hexadecimal.writePadded 4 (index * 4))

/-- Different positions have different names. -/
theorem labelText_injective : Function.Injective labelText := by
  intro i j h
  have hdigits : Radix.hexadecimal.writePadded 4 (i * 4)
      = Radix.hexadecimal.writePadded 4 (j * 4) := by
    have hlists := congrArg String.toList h
    simpa [labelText] using hlists
  have := Radix.hexadecimal.writePadded_injective 4 hdigits
  omega

/-- Four hexadecimal digits are enough for the addresses of the positions up to `0x3FFF`. -/
theorem address_lt_iff (index : ℕ) :
    index * 4 < Radix.hexadecimal.base ^ 4 ↔ index ≤ 0x3FFF := by
  rw [show Radix.hexadecimal.base ^ 4 = 0x10000 from by decide]
  omega

/-- Writing the address of a position in four digits. -/
theorem fieldOf_address (index : ℕ) :
    Radix.hexadecimal.fieldOf (index * 4) 4 =
      if index ≤ 0x3FFF then .ok (String.ofList (Radix.hexadecimal.writePadded 4 (index * 4)))
      else .error (.fieldTooWide (toString (index * 4)) (.digits .hexadecimal) 4) := by
  unfold Radix.fieldOf
  rw [Radix.writeField_of_pos _ _ 4 _ (by decide) (by decide)]
  simp only [address_lt_iff]

/-- A position whose address fits four digits has its name. -/
theorem labelName_of_le (index : ℕ) (h : index ≤ 0x3FFF) :
    labelName index = .ok (labelText index) := by
  have hword : index * 4 < UInt64.size := by
    simp only [UInt64.size]
    omega
  simp only [labelName, if_pos hword, fieldOf_address, if_pos h]
  rfl

/-- How a refusal shows the address of a position: as the number of the position if no machine
word can hold the address. -/
def shownAddress (index : ℕ) : ℕ := if index * 4 < UInt64.size then index * 4 else index

/-- A position whose address needs more than four digits has no name. -/
theorem labelName_of_lt (index : ℕ) (h : 0x3FFF < index) :
    labelName index =
      .error (.fieldTooWide (toString (shownAddress index)) (.digits .hexadecimal) 4) := by
  rw [labelName, shownAddress]
  split
  · simp only [fieldOf_address, if_neg (Nat.not_le.mpr h)]
    rfl
  · rfl

/-- The positions that have names, and their names. -/
theorem labelName_eq_ok_iff (index : ℕ) (name : String) :
    labelName index = .ok name ↔ index ≤ 0x3FFF ∧ name = labelText index := by
  by_cases h : index ≤ 0x3FFF
  · rw [labelName_of_le index h]
    simp [h, eq_comm]
  · rw [labelName_of_lt index (by omega)]
    simp [h]

/-- The name of a position shows its byte address in four hexadecimal digits. -/
theorem exists_digits_labelText (index : ℕ) (h : index ≤ 0x3FFF) :
    ∃ digits : List Char, labelText index = "Addr_" ++ String.ofList digits ∧
      digits.length = 4 ∧ (∀ c ∈ digits, c ∈ Word.hexDigits) ∧
      Radix.hexadecimal.read? digits = some (4 * index) := by
  refine ⟨Radix.hexadecimal.writePadded 4 (index * 4), rfl, ?_, ?_, ?_⟩
  · exact Radix.hexadecimal.length_writePadded_of_lt 4 _ (by decide) ((address_lt_iff index).mpr h)
  · exact Word.mem_hexDigits_of_mem_writePadded 4 _
  · rw [Radix.read?_writePadded, Nat.mul_comm]

/-- A position without a name is refused because its address needs too many digits. -/
theorem fieldTooWide_of_labelName (index : ℕ) (cause : Refusal)
    (h : labelName index = .error cause) :
    ∃ value field width, cause = .fieldTooWide value field width := by
  by_cases hle : index ≤ 0x3FFF
  · rw [labelName_of_le index hle] at h
    simp at h
  · rw [labelName_of_lt index (by omega)] at h
    exact ⟨_, _, _, (Except.error.inj h).symm⟩

/-! ## Destinations -/

/-- The destination of a branch, if it has one. -/
theorem branchDestination_eq_ok_iff (index : ℕ) (offset : ℤ) (size target : ℕ) :
    branchDestination index offset size = .ok target ↔
      twosComplement index 64 + 1 + offset = target ∧ target ≤ size := by
  simp only [branchDestination]
  split
  · simp only [Except.ok.injEq]
    omega
  · simp only [reduceCtorEq, false_iff]
    omega

/-- A branch without a destination is refused because it leads out of the program. -/
theorem branchOutOfRange_of_branchDestination (index : ℕ) (offset : ℤ) (size : ℕ)
    (cause : Refusal) (h : branchDestination index offset size = .error cause) :
    ∃ target, cause = .branchOutOfRange target := by
  simp only [branchDestination] at h
  split at h
  · simp at h
  · exact ⟨_, (Except.error.inj h).symm⟩

/-- A position below the middle of the machine numbers is not negative. -/
theorem twosComplement_of_small (index : ℕ) (h : index < 0x8000000000000000) :
    twosComplement index 64 = index := by
  have hhalf : (2 : ℤ) ^ (signWidth 64 - 1) = 0x8000000000000000 := by decide
  apply twosComplement_of_inRange
  rw [InSignedRange, hhalf]
  omega

/-- Where a branch leads, if its position is below the middle of the machine numbers. -/
theorem branchDestination_of_small (index : ℕ) (offset : ℤ) (size : ℕ)
    (h : index < 0x8000000000000000) :
    branchDestination index offset size =
      if 0 ≤ index + 1 + offset ∧ index + 1 + offset ≤ size then
        .ok (index + 1 + offset).toNat
      else .error (.branchOutOfRange (index + 1 + offset)) := by
  unfold branchDestination
  rw [twosComplement_of_small index h]

end MipsListing
