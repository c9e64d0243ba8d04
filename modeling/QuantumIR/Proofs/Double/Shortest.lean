import QuantumIR.Proofs.Double.Rounding

/-!
The shortest decimal reads back. Every decimal that the search returns lies in the interval of
its double, and with seventeen digits the grid is so fine that the search cannot fail: two
neighbours on it are closer than the interval is wide.
-/

namespace QuantumIR.Double

/-- The scaled place of a decimal among quarters of units. -/
def Decimal.point (d : Decimal) : Nat :=
  d.digits * (4 * Nat.pow 10 (d.exponent + decimalScale).toNat * unitsPerOne)

/-- The scale by which points are larger than quarters of units. -/
def scale : Nat := Nat.pow 10 decimalScale

theorem scale_eq : Nat.pow 10 decimalScale = scale := by
  rw [scale]

theorem pow_pos_of_two_le {base : Nat} (n : Nat) (h : 2 ≤ base) : 0 < Nat.pow base n :=
  Nat.pow_pos (by omega)

theorem scale_pos : 0 < scale := pow_pos_of_two_le decimalScale (by decide)

theorem unitsPerOne_pos : 0 < unitsPerOne := pow_pos_of_two_le 1074 (by decide)

theorem significand_pos {x : Double} (h : x.isZero = false) : 0 < x.significand := by
  rw [significand]
  split
  case isTrue hfield =>
    refine Nat.pos_of_ne_zero ?_
    simpa [isZero, hfield] using h
  case isFalse hfield =>
    exact Nat.lt_of_lt_of_le (Nat.pow_pos (by decide)) (Nat.le_add_right _ _)

/-- A number that is not zero is further from zero than from its lower neighbour. -/
theorem quarterBelow_le_units {x : Double} (h : x.isZero = false) :
    x.quarterBelow ≤ 4 * x.units := by
  have hle : 1 * x.spacing ≤ x.significand * x.spacing :=
    Nat.mul_le_mul_right _ (significand_pos h)
  have hbelow := x.quarterBelow_le
  rw [units]
  omega

/-- What the test for an interval says, without differences of natural numbers. -/
theorem isReadAs_bounds {x : Double} {point : Nat} (h : x.isReadAs point) :
    4 * x.units * scale ≤ point + x.quarterBelow * scale ∧
      point ≤ (4 * x.units + 2 * x.spacing) * scale ∧
      (x.significand % 2 = 1 → 4 * x.units * scale < point + x.quarterBelow * scale ∧
        point < (4 * x.units + 2 * x.spacing) * scale) := by
  simp only [isReadAs, scale_eq] at h
  have hsub : 4 * x.units * scale ≤
      (4 * x.units - x.quarterBelow) * scale + x.quarterBelow * scale := by
    rw [← Nat.add_mul]
    exact Nat.mul_le_mul_right _ (by omega)
  split at h
  case isTrue heven =>
    simp only [Bool.and_eq_true, decide_eq_true_eq] at h
    refine ⟨by omega, h.2, ?_⟩
    intro hodd
    omega
  case isFalse heven =>
    simp only [Bool.and_eq_true, decide_eq_true_eq] at h
    exact ⟨by omega, Nat.le_of_lt h.2, fun _ => ⟨by omega, h.2⟩⟩

/-- A point strictly between the ends of the interval lies in it. -/
theorem isReadAs_of_lt {x : Double} {point : Nat} (hzero : x.isZero = false)
    (hlow : 4 * x.units * scale < point + x.quarterBelow * scale)
    (hhigh : point < (4 * x.units + 2 * x.spacing) * scale) : x.isReadAs point := by
  have hsub : (4 * x.units - x.quarterBelow) * scale + x.quarterBelow * scale =
      4 * x.units * scale := by
    rw [← Nat.add_mul, Nat.sub_add_cancel (quarterBelow_le_units hzero)]
  simp only [isReadAs, scale_eq]
  split
  case isTrue heven =>
    simp only [Bool.and_eq_true, decide_eq_true_eq]
    exact ⟨by omega, Nat.le_of_lt hhigh⟩
  case isFalse heven =>
    simp only [Bool.and_eq_true, decide_eq_true_eq]
    exact ⟨by omega, hhigh⟩

/-- A quotient of units whose point lies in the interval is near to the double. -/
theorem near_of_isReadAs {x : Double} {point num den : Nat} (h : x.isReadAs point)
    (hden : 0 < den) (hpoint : 4 * num * scale = point * den) : x.Near num den := by
  obtain ⟨hlow, hhigh, hstrict⟩ := isReadAs_bounds h
  have hcancel : ∀ {a b : Nat}, a * scale ≤ b * scale → a ≤ b :=
    fun hle => Nat.le_of_mul_le_mul_right hle scale_pos
  have hcancel' : ∀ {a b : Nat}, a * scale < b * scale → a < b :=
    fun hlt => Nat.lt_of_mul_lt_mul_right hlt
  refine ⟨hcancel ?_, hcancel ?_, ?_⟩
  · have := Nat.mul_le_mul_right den hlow
    linarith
  · have := Nat.mul_le_mul_right den hhigh
    linarith
  · intro hodd
    obtain ⟨hlow, hhigh⟩ := hstrict hodd
    refine ⟨hcancel' ?_, hcancel' ?_⟩
    · have := Nat.mul_lt_mul_of_pos_right hlow hden
      linarith
    · have := Nat.mul_lt_mul_of_pos_right hhigh hden
      linarith

/-- The number of decimal digits of a scaled number before its point. -/
def places (x : Double) : Nat :=
  (Nat.toDigits 10 (x.units * scale / unitsPerOne)).length

theorem leadingExponent_eq (x : Double) :
    x.leadingExponent = (x.places : Int) - 1 - decimalScale := by
  rw [leadingExponent, scale_eq, places]

/-- Even the least positive double keeps more than seventeen digits under the scale. -/
theorem lt_places {x : Double} (hzero : x.isZero = false) : 17 < x.places := by
  have hunits : 1 ≤ x.units := Nat.mul_pos (significand_pos hzero) x.spacing_pos
  rw [places, ← Nat.not_le, Nat.length_toDigits_le_iff (by decide) (by decide), Nat.not_lt,
    Nat.le_div_iff_mul_le unitsPerOne_pos]
  refine Nat.le_trans ?_ (Nat.le_mul_of_pos_left scale hunits)
  rw [scale, decimalScale, unitsPerOne]
  decide +kernel

/-- The leading digit of a scaled number stands for no more than the number. -/
theorem pow_places_le {x : Double} (hzero : x.isZero = false) :
    10 ^ (x.places - 1) * unitsPerOne ≤ x.units * scale := by
  have hplaces := lt_places hzero
  have hlt : ¬ (Nat.toDigits 10 (x.units * scale / unitsPerOne)).length ≤ x.places - 1 := by
    rw [← places]
    omega
  rw [Nat.length_toDigits_le_iff (by decide) (by omega), Nat.not_lt] at hlt
  exact (Nat.le_div_iff_mul_le unitsPerOne_pos).mp hlt

/-- The distance of two neighbours on the grid of so many digits. -/
def gridStep (x : Double) (count : Nat) : Nat :=
  4 * Nat.pow 10 (x.leadingExponent + 1 - count + decimalScale).toNat * unitsPerOne

/-- Seventeen digits make a grid finer than the interval of any double. -/
theorem gridStep_lt {x : Double} (hzero : x.isZero = false) :
    x.gridStep 17 < (x.quarterBelow + 2 * x.spacing) * scale := by
  have hplaces := lt_places hzero
  have hexponent : (x.leadingExponent + 1 - 17 + decimalScale).toNat = x.places - 17 := by
    rw [leadingExponent_eq]
    omega
  have hstep : x.gridStep 17 * 10 ^ 16 ≤ 4 * x.units * scale := by
    have hpow : 10 ^ (x.places - 17) * 10 ^ 16 = 10 ^ (x.places - 1) := by
      rw [← Nat.pow_add]
      congr 1
      omega
    have hlead := pow_places_le hzero
    rw [gridStep, Nat.cast_ofNat, hexponent, Nat.pow_eq]
    calc 4 * 10 ^ (x.places - 17) * unitsPerOne * 10 ^ 16
        = 4 * (10 ^ (x.places - 17) * 10 ^ 16 * unitsPerOne) := by ring
      _ = 4 * (10 ^ (x.places - 1) * unitsPerOne) := by rw [hpow]
      _ ≤ 4 * x.units * scale := by linarith
  have hwidth : 0 < x.spacing * scale := Nat.mul_pos x.spacing_pos scale_pos
  rw [units] at hstep
  rw [quarterBelow]
  split
  case isTrue h =>
    have hleast : x.significand = 2 ^ 52 := by
      rw [significand, if_neg (by omega), h.1]
      rfl
    rw [hleast] at hstep
    norm_num at hstep
    linarith
  case isFalse h =>
    have hle : x.significand * (x.spacing * scale) ≤ 2 ^ 53 * (x.spacing * scale) :=
      Nat.mul_le_mul_right _ (Nat.le_of_lt x.significand_lt)
    norm_num at hstep hle
    linarith

/-- What the search returns lies in the interval. -/
theorem nearest?_isReadAs {x : Double} {tie : Tie} {count : Nat} {d : Decimal}
    (h : x.nearest? tie count = some d) :
    d.exponent = x.leadingExponent + 1 - count ∧ x.isReadAs d.point := by
  simp only [nearest?] at h
  split at h
  case h_1 hbelow habove =>
    cases h
    refine ⟨rfl, ?_⟩
    dsimp only [Decimal.point]
    cases tie
    · dsimp only
      split
      · exact habove
      · exact hbelow
    · dsimp only
      split
      · exact habove
      · exact hbelow
  case h_2 hbelow habove =>
    cases h
    refine ⟨rfl, ?_⟩
    dsimp only [Decimal.point]
    exact hbelow
  case h_3 hbelow habove =>
    cases h
    refine ⟨rfl, ?_⟩
    dsimp only [Decimal.point]
    exact habove
  case h_4 => exact absurd h (Option.some_ne_none d).symm

/-- One of the two neighbours on the grid of seventeen digits lies in the interval. -/
theorem nearest?_seventeen {x : Double} (hzero : x.isZero = false) (tie : Tie) :
    (x.nearest? tie 17).isSome := by
  have hlt := gridStep_lt hzero
  have hstep : 0 < x.gridStep 17 :=
    Nat.mul_pos (Nat.mul_pos (by decide) (pow_pos_of_two_le _ (by decide))) unitsPerOne_pos
  obtain ⟨value, hvalue⟩ : ∃ value, value = 4 * x.units * scale := ⟨_, rfl⟩
  have hdiv := Nat.div_add_mod value (x.gridStep 17)
  have hmod := Nat.mod_lt value hstep
  rw [Nat.mul_comm] at hdiv
  have hspacing : 0 < 2 * x.spacing * scale :=
    Nat.mul_pos (Nat.mul_pos (by decide) x.spacing_pos) scale_pos
  simp only [Nat.add_mul] at hlt
  have hneighbour : x.isReadAs (value / x.gridStep 17 * x.gridStep 17) = true ∨
      x.isReadAs ((value / x.gridStep 17 + 1) * x.gridStep 17) = true := by
    by_cases hbelow : value % x.gridStep 17 < x.quarterBelow * scale
    · refine Or.inl (isReadAs_of_lt hzero ?_ ?_)
      · omega
      · rw [Nat.add_mul]
        omega
    · refine Or.inr (isReadAs_of_lt hzero ?_ ?_)
      · rw [Nat.add_mul]
        omega
      · rw [Nat.add_mul, Nat.add_mul]
        omega
  simp only [nearest?, scale_eq, ← hvalue]
  rw [gridStep] at hneighbour
  split
  case h_4 hbelow habove =>
    rcases hneighbour with h | h
    · exact absurd h (by rw [hbelow]; exact Bool.false_ne_true)
    · exact absurd h (by rw [habove]; exact Bool.false_ne_true)
  all_goals rfl

/-- Leaving out zeros at the end moves no decimal. -/
theorem Decimal.trimZeros_point (d : Decimal) (h : 0 ≤ d.exponent + decimalScale) :
    d.trimZeros.point = d.point ∧ d.exponent ≤ d.trimZeros.exponent := by
  induction d using Decimal.trimZeros.induct with
  | case1 d hzero ih =>
    obtain ⟨hpoint, hexponent⟩ := ih (by dsimp only; omega)
    rw [Decimal.trimZeros, if_pos hzero]
    refine ⟨hpoint.trans ?_, by dsimp only at hexponent; omega⟩
    have hdigits : d.digits = d.digits / 10 * 10 := by omega
    have hpow : (d.exponent + 1 + decimalScale).toNat = (d.exponent + decimalScale).toNat + 1 := by
      omega
    simp only [Decimal.point, hpow, Nat.pow_eq]
    conv_rhs => rw [hdigits]
    ring
  | case2 d hzero =>
    rw [Decimal.trimZeros, if_neg hzero]
    exact ⟨rfl, le_rfl⟩

/-- The shortest decimal lies in the interval of its double. -/
theorem shortest_isReadAs {x : Double} (hzero : x.isZero = false) (tie : Tie) :
    x.isReadAs (x.shortest tie).point ∧ 0 < (x.shortest tie).exponent + decimalScale := by
  have hplaces := lt_places hzero
  have hsome : ((List.range 17).findSome? fun i => x.nearest? tie (i + 1)).isSome := by
    rw [List.findSome?_isSome_iff]
    exact ⟨16, by simp, nearest?_seventeen hzero tie⟩
  obtain ⟨d, hd⟩ := Option.isSome_iff_exists.mp hsome
  obtain ⟨i, hi, hnearest⟩ := List.exists_of_findSome?_eq_some hd
  obtain ⟨hexponent, hread⟩ := nearest?_isReadAs hnearest
  rw [List.mem_range] at hi
  have hpositive : 0 < d.exponent + decimalScale := by
    rw [hexponent, leadingExponent_eq]
    push_cast
    omega
  obtain ⟨hpoint, hle⟩ := d.trimZeros_point (Int.le_of_lt hpositive)
  rw [shortest, hzero, hd]
  simp only [Bool.false_eq_true, if_false, Option.getD_some]
  exact ⟨by rw [hpoint]; exact hread, by omega⟩

end QuantumIR.Double
