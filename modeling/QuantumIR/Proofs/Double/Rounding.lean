import Mathlib
import QuantumIR.Double.Decimal
import QuantumIR.Double.Shortest

/-!
Rounding to doubles. A quotient that lies in the interval around a double is rounded to that
double's bits. The interval reaches below the double by half a step of its own binade, or by a
quarter of one where the next binade below begins.
-/

namespace QuantumIR.Double

/-- Rounding gives the integer that a quotient is nearest to, and the even one of two. -/
theorem roundHalfEven_eq {num den k : Nat} (hden : 0 < den)
    (hlow : 2 * k * den ≤ 2 * num + den) (hhigh : 2 * num ≤ (2 * k + 1) * den)
    (hodd : k % 2 = 1 → 2 * k * den < 2 * num + den ∧ 2 * num < (2 * k + 1) * den) :
    roundHalfEven num den = k := by
  obtain ⟨f, r, hf, hr, hnum, hlt⟩ : ∃ f r, f = num / den ∧ r = num % den ∧
      num = f * den + r ∧ r < den := by
    refine ⟨num / den, num % den, rfl, rfl, ?_, Nat.mod_lt num hden⟩
    rw [Nat.mul_comm]
    exact (Nat.div_add_mod num den).symm
  have hcases : k = f ∨ k = f + 1 := by
    have hle : f ≤ k := by
      by_contra hlt
      have : (k + 1) * den ≤ f * den := Nat.mul_le_mul_right den (by omega)
      simp only [Nat.add_mul, Nat.one_mul, Nat.mul_assoc] at hhigh this
      omega
    have hge : k ≤ f + 1 := by
      by_contra hlt
      have : (f + 2) * den ≤ k * den := Nat.mul_le_mul_right den (by omega)
      simp only [Nat.add_mul, Nat.mul_assoc] at hlow this
      omega
    omega
  rw [roundHalfEven, ← hf, ← hr]
  rcases hcases with rfl | rfl
  · simp only [Nat.add_mul, Nat.one_mul, Nat.mul_assoc] at hhigh hodd
    split
    · rfl
    · split
      · omega
      · omega
  · simp only [Nat.add_mul, Nat.mul_add, Nat.one_mul, Nat.mul_one, Nat.mul_assoc] at hlow hodd
    split
    · omega
    · split
      · rfl
      · omega

/-- The bits of a double without its sign. -/
def magnitude (x : Double) : Nat :=
  x.exponentField * Nat.pow 2 52 + x.fraction

theorem fraction_lt (x : Double) : x.fraction < Nat.pow 2 52 :=
  Nat.mod_lt _ (by decide)

theorem exponentField_lt (x : Double) : x.exponentField < 2048 :=
  Nat.mod_lt _ (by decide)

/-- The magnitude counts the steps of the exponent field that lie below the significand. -/
theorem magnitude_eq (x : Double) :
    x.magnitude = (x.exponentField - 1) * Nat.pow 2 52 + x.significand := by
  rw [magnitude, significand]
  split
  case isTrue h => rw [h]
  case isFalse h =>
    have hpos : x.exponentField = x.exponentField - 1 + 1 := by omega
    rw [← Nat.add_assoc, ← Nat.succ_mul]
    exact congrArg (fun e => e * Nat.pow 2 52 + x.fraction) hpos

theorem magnitude_lt_infinityBits {x : Double} (h : x.isFinite) : x.magnitude < infinityBits := by
  have hfraction := x.fraction_lt
  have hfield := x.exponentField_lt
  have hne : x.exponentField ≠ 2047 := by simpa [isFinite] using h
  have hle : x.exponentField * Nat.pow 2 52 ≤ 2046 * Nat.pow 2 52 :=
    Nat.mul_le_mul_right _ (by omega)
  simp only [magnitude, infinityBits, Nat.pow_eq] at *
  omega

theorem significand_lt (x : Double) : x.significand < Nat.pow 2 53 := by
  have hfraction := x.fraction_lt
  simp only [significand, Nat.pow_eq] at *
  split <;> omega

/-- Above the first binade the significand has its leading one. -/
theorem le_significand {x : Double} (h : x.exponentField ≠ 0) :
    Nat.pow 2 52 ≤ x.significand := by
  rw [significand, if_neg h]
  exact Nat.le_add_right _ _

theorem spacing_pos (x : Double) : 0 < x.spacing :=
  Nat.pow_pos (by decide)

/-- A quotient of units that lies in the interval of numbers nearest to a double. The ends
belong to it if the significand is even. -/
structure Near (x : Double) (num den : Nat) : Prop where
  low : 4 * x.units * den ≤ 4 * num + x.quarterBelow * den
  high : 4 * num ≤ (4 * x.units + 2 * x.spacing) * den
  strict : x.significand % 2 = 1 → 4 * x.units * den < 4 * num + x.quarterBelow * den ∧
    4 * num < (4 * x.units + 2 * x.spacing) * den

theorem quarterBelow_le (x : Double) : x.quarterBelow ≤ 2 * x.spacing := by
  rw [quarterBelow]
  split <;> omega

/-- How often a quotient is halved before it is rounded is told by its leading binary digit. -/
theorem doublings_eq {q k : Nat} (hlow : k = 0 ∨ 2 ^ (52 + k) ≤ q) (hhigh : q < 2 ^ (53 + k)) :
    q.log2 - 52 = k := by
  by_cases hq : q = 0
  · subst hq
    rcases hlow with rfl | hlow
    · rfl
    · exact absurd hlow (Nat.not_le.mpr (Nat.pow_pos (by decide)))
  · have hlt : q.log2 < 53 + k := (Nat.log2_lt hq).mpr hhigh
    rcases hlow with rfl | hlow
    · omega
    · have hle : 52 + k ≤ q.log2 := (Nat.le_log2 hq).mpr hlow
      omega

/-- In the double's own binade a near quotient is rounded to the significand. -/
theorem Near.round_significand {x : Double} {num den : Nat} (h : x.Near num den)
    (hden : 0 < den) : roundHalfEven num (den * x.spacing) = x.significand := by
  have hbelow : x.quarterBelow * den ≤ 2 * x.spacing * den :=
    Nat.mul_le_mul_right den x.quarterBelow_le
  obtain ⟨hlow, hhigh, hstrict⟩ := h
  simp only [units] at hlow hhigh hstrict
  refine roundHalfEven_eq (Nat.mul_pos hden x.spacing_pos) ?_ ?_ ?_
  · linarith
  · linarith
  · intro hodd
    obtain ⟨hlow, hhigh⟩ := hstrict hodd
    constructor
    · linarith
    · linarith

/-- The bits of the rounded quotient are those of the double it is near to. -/
theorem Near.magnitudeBits_eq {x : Double} {num den : Nat} (h : x.Near num den)
    (hfinite : x.isFinite) (hden : 0 < den) : magnitudeBits num den = x.magnitude := by
  have hsignificand := x.significand_lt
  have hspacing : x.spacing = 2 ^ (x.exponentField - 1) := rfl
  have hunits : x.units = x.significand * x.spacing := rfl
  have hpositive : 0 < x.spacing * den := Nat.mul_pos x.spacing_pos hden
  -- The upper end of the interval stays in the double's binade.
  have hbinade : num < 2 ^ 53 * x.spacing * den := by
    have hhigh := h.high
    have hle : x.significand * (x.spacing * den) ≤ (2 ^ 53 - 1) * (x.spacing * den) :=
      Nat.mul_le_mul_right _ (Nat.le_sub_one_of_lt hsignificand)
    rw [hunits] at hhigh
    norm_num at hle ⊢
    linarith
  have hquotient : num / den < 2 ^ (53 + (x.exponentField - 1)) := by
    rw [Nat.div_lt_iff_lt_mul hden, Nat.pow_add, ← hspacing]
    exact hbinade
  rw [magnitudeBits]
  by_cases hlow : x.exponentField - 1 = 0 ∨ 2 ^ (52 + (x.exponentField - 1)) ≤ num / den
  · have hround : roundHalfEven num (den * Nat.pow 2 (x.exponentField - 1)) = x.significand :=
      h.round_significand hden
    simp only [doublings_eq hlow hquotient]
    rw [hround, ← magnitude_eq]
    exact Nat.min_eq_right (Nat.le_of_lt (magnitude_lt_infinityBits hfinite))
  · -- The quotient lies below the first double of the binade, so it is rounded up to it.
    rw [not_or, Nat.not_le] at hlow
    obtain ⟨hfield, hbelow⟩ := hlow
    obtain ⟨e, he⟩ : ∃ e, x.exponentField = e + 2 := ⟨x.exponentField - 2, by omega⟩
    have hhalf : x.spacing = 2 * 2 ^ e := by
      rw [hspacing, he]
      exact Nat.pow_succ'
    have hnum : num < 2 ^ 52 * x.spacing * den := by
      rwa [Nat.div_lt_iff_lt_mul hden, Nat.pow_add, ← hspacing] at hbelow
    have hleast : x.significand = Nat.pow 2 52 := by
      refine Nat.le_antisymm ?_ (le_significand (by omega))
      by_contra hgt
      have hge : (2 ^ 52 + 1) * (x.spacing * den) ≤ x.significand * (x.spacing * den) :=
        Nat.mul_le_mul_right _ (Nat.lt_of_not_le hgt)
      have hquarter : x.quarterBelow * den ≤ 2 * x.spacing * den :=
        Nat.mul_le_mul_right den x.quarterBelow_le
      have hlow := h.low
      rw [hunits] at hlow
      norm_num at hge hnum
      linarith
    have hfraction : x.fraction = 0 := by
      rw [significand, if_neg (by omega)] at hleast
      omega
    have hquarter : x.quarterBelow = x.spacing := by
      rw [quarterBelow, if_pos ⟨hfraction, by omega⟩]
    have hlow := h.low
    rw [hunits, hleast, hquarter, hhalf] at hlow
    rw [hhalf] at hnum
    have hdoublings : (num / den).log2 - 52 = e := by
      refine doublings_eq (Or.inr ?_) ?_
      · rw [Nat.le_div_iff_mul_le hden, Nat.pow_add]
        have : 0 < 2 ^ e * den := Nat.mul_pos (Nat.pow_pos (by decide)) hden
        norm_num [Nat.pow_eq] at hlow ⊢
        linarith
      · rw [Nat.div_lt_iff_lt_mul hden, Nat.pow_add]
        norm_num at hnum ⊢
        linarith
    have hround : roundHalfEven num (den * Nat.pow 2 e) = 2 ^ 53 := by
      refine roundHalfEven_eq (Nat.mul_pos hden (Nat.pow_pos (by decide))) ?_ ?_ ?_
      · norm_num [Nat.pow_eq] at hlow ⊢
        linarith
      · norm_num [Nat.pow_eq] at hnum ⊢
        linarith
      · intro hodd
        norm_num at hodd
    simp only [hdoublings]
    have hvalue : e * Nat.pow 2 52 + 2 ^ 53 = x.magnitude := by
      rw [magnitude, hfraction, he]
      simp only [Nat.pow_eq]
      omega
    rw [hround, hvalue]
    exact Nat.min_eq_right (Nat.le_of_lt (magnitude_lt_infinityBits hfinite))

end QuantumIR.Double
