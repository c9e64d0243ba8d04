import QuantumIR.Proofs.Verified.Rules
import QuantumIR.Word

/-!
Words as bit vectors. A word of a width stands for the bit vector of its low bits; what it is as a
signed number, and which word a number has, is the same on both sides.
-/

namespace QuantumIR.Word

variable {width : UInt32}

theorem modulus_pos (width : UInt32) : 0 < modulus width :=
  Nat.pow_pos (by decide)

theorem modulus_eq (h : width ≤ 64) : modulus width = 2 ^ width.toNat := by
  have hle : width.toNat ≤ 64 := UInt32.le_iff_toNat_le.mp h
  rw [modulus, Nat.min_eq_left hle]
  rfl

theorem ofInt_lt_modulus (value : Int) (width : UInt32) : ofInt value width < modulus width := by
  have hpos : (0 : Int) < modulus width := Int.natCast_pos.mpr (modulus_pos width)
  have hnonneg := Int.emod_nonneg value hpos.ne'
  have hlt := Int.emod_lt_of_pos value hpos
  rw [ofInt]
  omega

/-- The low bits of a number are those of its word of 64 bits. -/
theorem truncate_ofInt (n : Int) (width : UInt32) :
    truncate (Int64.ofInt n) width = ofInt n width := by
  have hdvd : (modulus width : Int) ∣ ((2 ^ 64 : Nat) : Int) :=
    Int.natCast_dvd_natCast.mpr (Nat.pow_dvd_pow 2 (Nat.min_le_right _ _))
  have hword : (Int64.ofInt n).toInt % ((2 ^ 64 : Nat) : Int) = n % ((2 ^ 64 : Nat) : Int) := by
    rw [Int64.toInt_ofInt]
    exact Int.bmod_emod
  rw [truncate, ofInt, ofInt, ← Int.emod_emod_of_dvd _ hdvd, hword, Int.emod_emod_of_dvd _ hdvd]

/-- The word of a number in the range of signed or of unsigned words is the number itself below the
sign bit, and negative from there on. -/
theorem toInt_ofInt {n : Int} (hlow : -2 ^ 63 ≤ n) (hhigh : n < 2 ^ 64) :
    (Int64.ofInt n).toInt = if n < 2 ^ 63 then n else n - 2 ^ 64 := by
  split
  · next hlt => exact Int64.toInt_ofInt_of_le hlow hlt
  · next hge =>
    have hsize : (Int64.size : Int) = 2 ^ 64 := rfl
    rw [Int64.toInt_ofInt, Int.bmod_def, hsize, Int.emod_eq_of_lt (by omega) hhigh]
    omega

theorem checkWidth_eq_ok : checkWidth width = .ok () ↔ 1 ≤ width ∧ width ≤ 64 := by
  rw [checkWidth]
  split <;> simp_all

/-- The low bits of a word, as many as a width says. -/
def bitVec (width : UInt32) (word : Nat) : BitVec width.toNat :=
  BitVec.ofNat width.toNat word

theorem toNat_bitVec (h : width ≤ 64) (word : Nat) :
    (bitVec width word).toNat = word % modulus width := by
  rw [bitVec, BitVec.toNat_ofNat, modulus_eq h]

@[simp]
theorem bitVec_toNat (a : BitVec width.toNat) : bitVec width a.toNat = a := by
  simp [bitVec]

/-- A word that fits into its width is the number of its bit vector. -/
theorem toNat_bitVec_of_lt {word : Nat} (h : word < 2 ^ width.toNat) :
    (bitVec width word).toNat = word := by
  rw [bitVec, BitVec.toNat_ofNat, Nat.mod_eq_of_lt h]

theorem toNat_mod_modulus (h : width ≤ 64) (a : BitVec width.toNat) :
    a.toNat % modulus width = a.toNat := by
  rw [modulus_eq h, Nat.mod_eq_of_lt a.isLt]

theorem signed_toNat (h : width ≤ 64) (a : BitVec width.toNat) :
    signed a.toNat width = a.toInt := by
  rw [BitVec.toInt_eq_toNat_cond, ← modulus_eq h, signed, toNat_mod_modulus h]

theorem ofInt_eq (h : width ≤ 64) (value : Int) :
    ofInt value width = (BitVec.ofInt width.toNat value).toNat := by
  rw [BitVec.toNat_ofInt, ← modulus_eq h, ofInt]

/-- A word of 64 bits keeps the number that it stands for. -/
theorem signed_truncate (value : Int64) : signed (truncate value 64) 64 = value.toInt := by
  rw [truncate, ofInt_eq (UInt32.le_refl 64), signed_toNat (UInt32.le_refl 64)]
  exact congrArg BitVec.toInt (BitVec.ofInt_toInt (x := value.toBitVec))

end QuantumIR.Word
