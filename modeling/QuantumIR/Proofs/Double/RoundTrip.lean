import QuantumIR.Proofs.Double.Shortest
import QuantumIR.Proofs.Token.Spelling

/-!
Every double survives being written as a constant. A finite one is written with its shortest
decimal, which rounds back to it; the bits of any other are written out in hexadecimal.
-/

namespace QuantumIR

namespace Double

/-- A sign and a magnitude make up the bits. -/
theorem ofMagnitude_magnitude (x : Double) : ofMagnitude x.negative x.magnitude = x := by
  have hbits := x.bits.toNat_lt
  have hvalue : (if x.negative then Nat.pow 2 63 + x.magnitude else x.magnitude) =
      x.bits.toNat := by
    simp only [negative, magnitude, exponentField, fraction, Nat.pow_eq,
      show UInt64.size = 2 ^ 64 from rfl, decide_eq_true_eq]
    split <;> omega
  rw [ofMagnitude, hvalue, UInt64.ofNat_toNat]

/-- The bits of a magnitude end below the sign bit. -/
theorem negative_ofMagnitude (negative : Bool) {magnitude : Nat} (h : magnitude ≤ infinityBits) :
    (ofMagnitude negative magnitude).negative = negative := by
  have hbound : magnitude < 2 ^ 63 := Nat.lt_of_le_of_lt h (by decide)
  have hsize : UInt64.size = 2 ^ 64 := rfl
  rw [ofMagnitude, Double.negative]
  cases negative with
  | false =>
    rw [if_neg Bool.false_ne_true, UInt64.toNat_ofNat_of_lt' (by omega)]
    exact decide_eq_false (by omega)
  | true =>
    have hpow : Nat.pow 2 63 = 2 ^ 63 := rfl
    rw [if_pos rfl, UInt64.toNat_ofNat_of_lt' (by omega)]
    exact decide_eq_true (by omega)

theorem negative_ofDecimal (negative : Bool) (digits : Nat) (exponent : Int) :
    (ofDecimal negative digits exponent).negative = negative := by
  have hrounded : ∀ num den, magnitudeBits num den ≤ infinityBits := fun _ _ => Nat.min_le_left _ _
  apply negative_ofMagnitude
  split
  · exact Nat.zero_le _
  · split
    · exact Nat.le_refl _
    · split
      · exact hrounded _ _
      · exact hrounded _ _

/-- The double nearest to an integer has its sign. -/
theorem negative_ofInt (n : Int) : (ofInt n).negative = decide (n < 0) :=
  negative_ofDecimal _ _ _

theorem magnitude_of_isZero {x : Double} (h : x.isZero) : x.magnitude = 0 := by
  simp only [isZero, Bool.and_eq_true, decide_eq_true_eq] at h
  rw [magnitude, h.1, h.2]

/-- No finite double has as many units as the scaled power of ten past which decimals are
infinite. -/
theorem units_lt {x : Double} (h : x.isFinite) :
    4 * x.units + 2 * x.spacing < 4 * 10 ^ 400 * unitsPerOne := by
  have hne : x.exponentField ≠ 2047 := by simpa [isFinite] using h
  have hfield := x.exponentField_lt
  have hspacing : x.spacing ≤ 2 ^ 2045 := Nat.pow_le_pow_right (by decide) (by omega)
  have hunits : x.units ≤ 2 ^ 53 * x.spacing :=
    Nat.mul_le_mul_right _ (Nat.le_of_lt x.significand_lt)
  have hfar : (4 * 2 ^ 53 + 2) * 2 ^ 2045 < 4 * 10 ^ 400 * unitsPerOne := by
    rw [unitsPerOne]
    decide +kernel
  refine Nat.lt_of_le_of_lt ?_ hfar
  refine Nat.le_trans ?_ (Nat.mul_le_mul_left _ hspacing)
  omega

/-- The leading digit of a number stands for no more than the number. -/
theorem pow_length_le {digits n : Nat} (h : digits ≠ 0)
    (hn : (Nat.toDigits 10 digits).length = n + 1) : 10 ^ n ≤ digits := by
  by_cases hn0 : n = 0
  · subst hn0
    exact Nat.one_le_iff_ne_zero.mpr h
  · have hlt : ¬ (Nat.toDigits 10 digits).length ≤ n := by omega
    rwa [Nat.length_toDigits_le_iff (by decide) (by omega), Nat.not_lt] at hlt

/-- A decimal that lies in the interval of a finite double is not past all doubles. -/
theorem places_le_of_isReadAs {x : Double} {digits : Nat} {exponent : Int}
    (hscale : 0 ≤ exponent + decimalScale) (hdigits : digits ≠ 0) (hfinite : x.isFinite)
    (hread : x.isReadAs (Decimal.point ⟨digits, exponent⟩)) :
    (Nat.toDigits 10 digits).length + exponent ≤ 400 := by
  by_contra hgt
  obtain ⟨n, hn⟩ : ∃ n, (Nat.toDigits 10 digits).length = n + 1 :=
    ⟨_, (Nat.succ_pred_eq_of_pos Nat.length_toDigits_pos).symm⟩
  have hscale400 : (decimalScale : Int) = 400 := rfl
  have hexponent : 400 + decimalScale ≤ n + (exponent + decimalScale).toNat := by
    omega
  have hpow : 10 ^ 400 * scale ≤ digits * Nat.pow 10 (exponent + decimalScale).toNat := by
    calc 10 ^ 400 * scale = 10 ^ (400 + decimalScale) := by
          rw [scale, Nat.pow_eq, ← Nat.pow_add]
      _ ≤ 10 ^ (n + (exponent + decimalScale).toNat) := Nat.pow_le_pow_right (by decide) hexponent
      _ = 10 ^ n * 10 ^ (exponent + decimalScale).toNat := Nat.pow_add ..
      _ ≤ digits * Nat.pow 10 (exponent + decimalScale).toNat :=
        Nat.mul_le_mul_right _ (pow_length_le hdigits hn)
  have hhigh := (isReadAs_bounds hread).2.1
  have hlt : (4 * x.units + 2 * x.spacing) * scale < 4 * 10 ^ 400 * unitsPerOne * scale :=
    Nat.mul_lt_mul_of_pos_right (units_lt hfinite) scale_pos
  have hpoint : 4 * 10 ^ 400 * unitsPerOne * scale ≤ Decimal.point ⟨digits, exponent⟩ := by
    have hmul := Nat.mul_le_mul_left (4 * unitsPerOne) hpow
    rw [Decimal.point]
    dsimp only
    linarith
  exact absurd (Nat.lt_of_lt_of_le hlt (Nat.le_trans hpoint hhigh)) (Nat.lt_irrefl _)

/-- A decimal in the interval of a number that is not zero is read as that number. -/
theorem ofDecimal_eq {x : Double} {digits : Nat} {exponent : Int} (hfinite : x.isFinite)
    (hzero : x.isZero = false) (hscale : 0 ≤ exponent + decimalScale)
    (hread : x.isReadAs (Decimal.point ⟨digits, exponent⟩)) :
    ofDecimal x.negative digits exponent = x := by
  have hdigits : digits ≠ 0 := by
    rintro rfl
    have hlow := (isReadAs_bounds hread).1
    rw [Decimal.point, Nat.zero_mul, Nat.zero_add] at hlow
    have hbelow := Nat.le_of_mul_le_mul_right hlow scale_pos
    have hle : 1 * x.spacing ≤ x.significand * x.spacing :=
      Nat.mul_le_mul_right _ (significand_pos hzero)
    have := x.quarterBelow_le
    have := x.spacing_pos
    rw [units] at hbelow
    omega
  have hplaces := places_le_of_isReadAs hscale hdigits hfinite hread
  have hlength : 0 < (Nat.toDigits 10 digits).length := Nat.length_toDigits_pos
  have hscale400 : (decimalScale : Int) = 400 := rfl
  rw [Decimal.point] at hread
  dsimp only at hread
  rw [ofDecimal, if_neg (by omega), if_neg (by omega)]
  conv_rhs => rw [← ofMagnitude_magnitude x]
  congr 1
  split
  case isTrue hexponent =>
    refine Near.magnitudeBits_eq (near_of_isReadAs hread (by decide) ?_) hfinite (by decide)
    have hsum : (exponent + decimalScale).toNat = exponent.toNat + decimalScale := by omega
    rw [hsum, scale]
    simp only [Nat.pow_eq, Nat.pow_add]
    ring
  case isFalse hexponent =>
    have hden : 0 < Nat.pow 10 (-exponent).toNat := pow_pos_of_two_le _ (by decide)
    refine Near.magnitudeBits_eq (near_of_isReadAs hread hden ?_) hfinite hden
    have hsum : decimalScale = (exponent + decimalScale).toNat + (-exponent).toNat := by omega
    have hpow : scale = 10 ^ (exponent + decimalScale).toNat * 10 ^ (-exponent).toNat := by
      rw [← Nat.pow_add, ← hsum, scale, Nat.pow_eq]
    rw [hpow]
    simp only [Nat.pow_eq]
    ring

end Double

end QuantumIR
