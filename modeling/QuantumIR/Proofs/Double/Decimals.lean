import QuantumIR.Proofs.Double.RoundTrip

/-!
Decimals as text. The notations differ in where the point stands, in zeros that they add and in when
they write an exponent. Whatever they choose, the text of a finite double makes up a decimal that
rounds to that double, so reading undoes writing.
-/

namespace QuantumIR

open Text

namespace Double

theorem ofDecimal_zero {x : Double} (h : x.isZero) (exponent : Int) :
    ofDecimal x.negative 0 exponent = x := by
  conv_rhs => rw [← ofMagnitude_magnitude x, magnitude_of_isZero h]
  rw [ofDecimal, if_pos (Or.inl rfl)]

/-- The exponent of a shortest decimal stays within the scale in which decimals are compared. -/
theorem shortest_scale (x : Double) (tie : Tie) :
    0 < (x.shortest tie).exponent + decimalScale := by
  cases hzero : x.isZero with
  | true =>
    rw [shortest, hzero]
    exact Int.natCast_pos.mpr (by decide)
  | false => exact (shortest_isReadAs hzero tie).2

/-- The shortest decimal reads back, also with zeros after its digits. -/
theorem ofDecimal_shortest {x : Double} (hfinite : x.isFinite) (tie : Tie) (zeros : Nat)
    (hscale : 0 ≤ (x.shortest tie).exponent - zeros + decimalScale) :
    ofDecimal x.negative (10 ^ zeros * (x.shortest tie).digits)
      ((x.shortest tie).exponent - zeros) = x := by
  cases hzero : x.isZero with
  | true =>
    rw [shortest, hzero]
    exact ofDecimal_zero hzero _
  | false =>
    refine ofDecimal_eq hfinite hzero hscale ?_
    have hpow : ((x.shortest tie).exponent + decimalScale).toNat =
        ((x.shortest tie).exponent - zeros + decimalScale).toNat + zeros := by
      omega
    have hpoint : Decimal.point ⟨10 ^ zeros * (x.shortest tie).digits,
        (x.shortest tie).exponent - zeros⟩ = (x.shortest tie).point := by
      simp only [Decimal.point, hpow, Nat.pow_eq, Nat.pow_add]
      ring
    exact (congrArg x.isReadAs hpoint).trans (shortest_isReadAs hzero tie).1

/-- The sign that is written before a number. -/
def signText (x : Double) : List Char :=
  if x.negative then ['-'] else []

theorem signText_cases (x : Double) : x.signText = [] ∨ x.signText = ['-'] := by
  rw [signText]
  split
  · exact Or.inr rfl
  · exact Or.inl rfl

/-! ### Reading -/

theorem dropWhile_append_stop {p : Char → Bool} {row post : List Char} (hrow : ∀ c ∈ row, p c)
    (hpost : ∀ c rest, post = c :: rest → p c = false) : (row ++ post).dropWhile p = post := by
  rw [List.dropWhile_append_of_pos hrow]
  cases post with
  | nil => rfl
  | cons c rest => rw [List.dropWhile_cons_of_neg (by simp [hpost c rest rfl])]

theorem readExponent_toString (n : Int) : readExponent (toString n).toList = n := by
  rw [toList_toString_int]
  split
  case isTrue h =>
    rw [readExponent, digits?_toDigits, Option.getD_some]
    omega
  case isFalse h =>
    obtain ⟨c, rest, heq, hc⟩ := toDigits_eq_cons n.natAbs
    have hvalue := digits?_toDigits n.natAbs
    rw [heq] at hvalue ⊢
    rw [readExponent, hvalue, Option.getD_some]
    · omega
    · intro others heq
      exact isDigit_ne hc (by decide) (List.cons.inj heq).1
    · intro others heq
      exact isDigit_ne hc (by decide) (List.cons.inj heq).1

theorem readExponent_plus {n : Int} (h : 0 ≤ n) :
    readExponent ('+' :: (toString n).toList) = n := by
  rw [toList_toString_int, if_neg (by omega), readExponent, digits?_toDigits, Option.getD_some]
  omega

/-- What stands after the digits of a decimal: nothing, or an exponent. A plus sign may stand before
an exponent that is not negative. -/
inductive IsTail : List Char → Int → Prop
  | none : IsTail [] 0
  | exponent (n : Int) : IsTail ('e' :: (toString n).toList) n
  | plus {n : Int} (h : 0 ≤ n) : IsTail ('e' :: '+' :: (toString n).toList) n

/-- What stands between the digits before the point and the exponent: nothing, or a point and the
digits after it. -/
inductive IsFraction : List Char → List Char → Prop
  | none : IsFraction [] []
  | point {fraction : List Char} (h : ∀ c ∈ fraction, isDigit c) :
      IsFraction ('.' :: fraction) fraction

/-- The text of a decimal without its sign. `digits` is the number that all its digits make up, and
`last` is the exponent of the last one. -/
inductive IsDecimal (text : List Char) (digits : Nat) (last : Int) : Prop
  | mk {whole middle fraction tail : List Char} {exponent : Int}
      (hne : whole ≠ []) (hwhole : ∀ c ∈ whole, isDigit c)
      (hmiddle : IsFraction middle fraction) (htail : IsTail tail exponent)
      (htext : text = whole ++ (middle ++ tail))
      (hdigits : digits = Nat.ofDigitChars 10 (whole ++ fraction) 0)
      (hlast : last = exponent - fraction.length)

theorem IsTail.stops {tail : List Char} {exponent : Int} (h : IsTail tail exponent) :
    ∀ c rest, tail = c :: rest → c = 'e' := by
  intro c rest heq
  cases h with
  | none => cases heq
  | exponent n => exact (List.cons.inj heq).1.symm
  | plus hn => exact (List.cons.inj heq).1.symm

/-- A decimal is read as the nearest double to it. -/
theorem IsDecimal.readUnsigned {text : List Char} {digits : Nat} {last : Int}
    (h : IsDecimal text digits last) (negative : Bool) :
    readUnsigned negative text = ofDecimal negative digits last := by
  obtain @⟨whole, middle, fraction, tail, exponent, hne, hwhole, hmiddle, htail, rfl, rfl, rfl⟩ := h
  have hletter : ∀ c rest, tail = c :: rest → isDigit c = false := by
    intro c rest heq
    rw [htail.stops c rest heq]
    decide
  have hfraction : ∀ c ∈ fraction, isDigit c := by
    cases hmiddle with
    | none => exact fun c hc => absurd hc List.not_mem_nil
    | point h => exact h
  have hdigits : digits? (whole ++ fraction) =
      some (Nat.ofDigitChars 10 (whole ++ fraction) 0) := by
    refine digits?_eq (by simp [hne]) (List.all_eq_true.mpr ?_)
    intro c hc
    exact (List.mem_append.mp hc).elim (hwhole c) (hfraction c)
  have hstop : ∀ c rest, middle ++ tail = c :: rest → isDigit c = false := by
    intro c rest heq
    cases hmiddle with
    | none => exact hletter c rest heq
    | point h =>
      cases heq
      decide
  rw [Double.readUnsigned]
  simp only [takeWhile_append_stop hwhole hstop, dropWhile_append_stop hwhole hstop]
  cases hmiddle with
  | none =>
    cases htail with
    | none =>
      change ofDecimal negative ((digits? (whole ++ [])).getD 0) (0 - ([] : List Char).length) = _
      rw [hdigits, Option.getD_some]
    | exponent =>
      change ofDecimal negative ((digits? (whole ++ [])).getD 0)
        (readExponent (toString exponent).toList - ([] : List Char).length) = _
      rw [hdigits, Option.getD_some, readExponent_toString]
    | plus h =>
      change ofDecimal negative ((digits? (whole ++ [])).getD 0)
        (readExponent ('+' :: (toString exponent).toList) - ([] : List Char).length) = _
      rw [hdigits, Option.getD_some, readExponent_plus h]
  | point h =>
    simp only [List.cons_append, takeWhile_append_stop h hletter, dropWhile_append_stop h hletter,
      hdigits, Option.getD_some]
    cases htail with
    | none => rfl
    | exponent => simp only [readExponent_toString]
    | plus h => simp only [readExponent_plus h]

/-- Decimals start with a digit. -/
theorem IsDecimal.exists_cons {text : List Char} {digits : Nat} {last : Int}
    (h : IsDecimal text digits last) : ∃ d rest, text = d :: rest ∧ isDigit d := by
  obtain @⟨whole, middle, fraction, tail, exponent, hne, hwhole, -, -, rfl, -, -⟩ := h
  obtain ⟨d, rest, rfl⟩ := List.exists_cons_of_ne_nil hne
  exact ⟨d, rest ++ (middle ++ tail), rfl, hwhole d List.mem_cons_self⟩

/-- What stands in a decimal. -/
theorem IsDecimal.mem {text : List Char} {digits : Nat} {last : Int}
    (h : IsDecimal text digits last) {c : Char} (hc : c ∈ text) :
    isDigit c ∨ c ∈ ['.', 'e', '-', '+'] := by
  obtain @⟨whole, middle, fraction, tail, exponent, -, hwhole, hmiddle, htail, rfl, -, -⟩ := h
  have hexponent : ∀ n : Int, ∀ c ∈ (toString n).toList, isDigit c ∨ c = '-' := by
    intro n c hc
    rw [toList_toString_int] at hc
    split at hc
    · rcases List.mem_cons.mp hc with rfl | hc
      · exact Or.inr rfl
      · exact Or.inl (Lexeme.isDigit_of_mem_toDigits hc)
    · exact Or.inl (Lexeme.isDigit_of_mem_toDigits hc)
  rcases List.mem_append.mp hc with hc | hc
  · exact Or.inl (hwhole c hc)
  rcases List.mem_append.mp hc with hc | hc
  · cases hmiddle with
    | none => cases hc
    | point hfraction =>
      rcases List.mem_cons.mp hc with rfl | hc
      · exact Or.inr (by simp)
      · exact Or.inl (hfraction c hc)
  · cases htail with
    | none => cases hc
    | exponent =>
      rcases List.mem_cons.mp hc with rfl | hc
      · exact Or.inr (by simp)
      · exact (hexponent _ c hc).imp_right (by rintro rfl; simp)
    | plus =>
      rcases List.mem_cons.mp hc with rfl | hc
      · exact Or.inr (by simp)
      rcases List.mem_cons.mp hc with rfl | hc
      · exact Or.inr (by simp)
      · exact (hexponent _ c hc).imp_right (by rintro rfl; simp)

/-- A decimal after its sign is read as the nearest double to it. -/
theorem IsDecimal.readDecimal {text : List Char} {digits : Nat} {last : Int}
    (h : IsDecimal text digits last) (x : Double) :
    readDecimal (x.signText ++ text) = ofDecimal x.negative digits last := by
  rw [signText]
  cases hnegative : x.negative with
  | true => exact h.readUnsigned true
  | false =>
    obtain ⟨d, rest, rfl, hd⟩ := h.exists_cons
    have hminus : d ≠ '-' := isDigit_ne hd (by decide)
    rw [if_neg Bool.false_ne_true, List.nil_append, Double.readDecimal, h.readUnsigned]
    intro others heq
    exact hminus (List.cons.inj heq).1

end Double

namespace DoubleNotation

open Double

/-- Notations that add nothing but zeros after a point, and plus signs. -/
structure IsExact (form : DoubleNotation) : Prop where
  wholeEnd : form.wholeEnd = "" ∨ form.wholeEnd = ".0"
  digitEnd : form.digitEnd = "" ∨ form.digitEnd = ".0"
  exponentPlus : form.exponentPlus = "" ∨ form.exponentPlus = "+"

variable {form : DoubleNotation} {row : List Char}

/-- Digits with what ends them are a decimal, with a zero after the last digit or without one. -/
theorem isDecimal_ending {ending : String} (h : ending = "" ∨ ending = ".0") (hne : row ≠ [])
    (hrow : ∀ c ∈ row, isDigit c) {tail : List Char} {exponent : Int}
    (htail : IsTail tail exponent) : ∃ zeros : Nat, zeros ≤ 1 ∧
      IsDecimal (row ++ (ending.toList ++ tail)) (10 ^ zeros * Nat.ofDigitChars 10 row 0)
        (exponent - zeros) := by
  rcases h with rfl | rfl
  · exact ⟨0, by omega, .mk hne hrow .none htail rfl (by simp) (by simp)⟩
  · have hzero : ∀ c ∈ ['0'], isDigit c := List.forall_mem_singleton.mpr (by decide)
    refine ⟨1, le_rfl, .mk hne hrow (.point hzero) htail rfl ?_ rfl⟩
    rw [Nat.ofDigitChars_append, Nat.ofDigitChars_cons]
    simp

/-- Digits with a point among them, before them or after them are a decimal. Zeros may stand after
the last digit, and one after the point. -/
theorem isDecimal_positionalText (h : form.IsExact) (hne : row ≠ []) (hrow : ∀ c ∈ row, isDigit c)
    (whole : Int) : ∃ zeros : Nat, (zeros : Int) ≤ max 0 (whole - row.length + 1) ∧
      IsDecimal (form.positionalText row whole).toList (10 ^ zeros * Nat.ofDigitChars 10 row 0)
        (whole - row.length - zeros) := by
  have hzeros : ∀ n, ∀ c ∈ List.replicate n '0', isDigit c := by
    intro n c hc
    rw [List.eq_of_mem_replicate hc]
    decide
  rw [positionalText]
  by_cases hwhole : whole ≤ 0
  · have hzero : ∀ c ∈ ['0'], isDigit c := List.forall_mem_singleton.mpr (by decide)
    have hfraction : ∀ c ∈ List.replicate (-whole).toNat '0' ++ row, isDigit c := fun c hc =>
      (List.mem_append.mp hc).elim (hzeros _ c) (hrow c)
    refine ⟨0, by omega, .mk (by simp) hzero (.point hfraction) .none ?_ ?_ ?_⟩
    · rw [if_pos hwhole]
      simp
    · rw [List.singleton_append, Nat.ofDigitChars_cons, Nat.ofDigitChars_append]
      simp
    · simp
      omega
  rw [if_neg hwhole]
  dsimp only
  by_cases hlong : row.length ≤ whole.toNat
  · have hfilled : ∀ c ∈ row ++ List.replicate (whole.toNat - row.length) '0', isDigit c :=
      fun c hc => (List.mem_append.mp hc).elim (hrow c) (hzeros _ c)
    obtain ⟨zeros, hbound, hdecimal⟩ :=
      isDecimal_ending h.wholeEnd (by simp [hne]) hfilled IsTail.none
    refine ⟨whole.toNat - row.length + zeros, by omega, ?_⟩
    have hvalue : 10 ^ (whole.toNat - row.length + zeros) * Nat.ofDigitChars 10 row 0 =
        10 ^ zeros * Nat.ofDigitChars 10
          (row ++ List.replicate (whole.toNat - row.length) '0') 0 := by
      rw [Nat.ofDigitChars_append, Nat.ofDigitChars_replicate_zero, Nat.pow_add]
      ring
    have hlast : whole - row.length - (whole.toNat - row.length + zeros : Nat) = 0 - zeros := by
      omega
    rw [if_pos hlong, hvalue, hlast]
    simpa using hdecimal
  · have htake : row.take whole.toNat ≠ [] := by
      rw [Ne, List.take_eq_nil_iff]
      exact not_or.mpr ⟨by omega, hne⟩
    have hfirst : ∀ c ∈ row.take whole.toNat, isDigit c :=
      fun c hc => hrow c (List.mem_of_mem_take hc)
    have hothers : ∀ c ∈ row.drop whole.toNat, isDigit c :=
      fun c hc => hrow c (List.mem_of_mem_drop hc)
    refine ⟨0, by omega, .mk htake hfirst (.point hothers) .none ?_ ?_ ?_⟩
    · rw [if_neg hlong]
      simp
    · rw [List.take_append_drop]
      simp
    · simp
      omega

theorem isTail_exponent (h : form.IsExact) (exponent : Int) :
    IsTail ("e" ++ (if exponent < 0 then "" else form.exponentPlus) ++ toString exponent).toList
      exponent := by
  rw [String.toList_append, String.toList_append]
  by_cases hnegative : exponent < 0
  · rw [if_pos hnegative]
    exact .exponent exponent
  · rw [if_neg hnegative]
    rcases h.exponentPlus with hplus | hplus
    · rw [hplus]
      exact .exponent exponent
    · rw [hplus]
      exact .plus (by omega)

/-- Digits with an exponent are a decimal, with a zero after the last digit or without one. -/
theorem isDecimal_scientificText (h : form.IsExact) (hne : row ≠ []) (hrow : ∀ c ∈ row, isDigit c)
    (exponent : Int) : ∃ zeros : Nat, zeros ≤ 1 ∧
      IsDecimal (form.scientificText row exponent).toList (10 ^ zeros * Nat.ofDigitChars 10 row 0)
        (exponent + 1 - row.length - zeros) := by
  have htail := isTail_exponent h exponent
  match row, hne with
  | [d], _ =>
    obtain ⟨zeros, hbound, hdecimal⟩ := isDecimal_ending h.digitEnd (by simp) hrow htail
    refine ⟨zeros, hbound, ?_⟩
    have hlast : exponent + 1 - ([d].length : Int) - zeros = exponent - zeros := by
      simp
    rw [hlast]
    simpa [scientificText] using hdecimal
  | d :: e :: rest, _ =>
    obtain ⟨hfirst, hothers⟩ := List.forall_mem_cons.mp hrow
    refine ⟨0, by omega, .mk (by simp) (List.forall_mem_singleton.mpr hfirst) (.point hothers)
      htail ?_ ?_ ?_⟩
    · simp [scientificText]
    · simp
    · simp

/-- A finite double is written as its sign and a decimal that rounds to it. -/
theorem format_eq (h : form.IsExact) {x : Double} (hfinite : x.isFinite) :
    ∃ text digits last, (form.format x).toList = x.signText ++ text ∧ IsDecimal text digits last ∧
      ofDecimal x.negative digits last = x := by
  have hscale := x.shortest_scale form.tie
  have hround := ofDecimal_shortest hfinite form.tie
  have hsign : (if x.negative then "-" else "").toList = x.signText := by
    rw [signText]
    split <;> rfl
  rw [format, if_pos hfinite]
  dsimp only
  generalize x.shortest form.tie = decimal at hscale hround ⊢
  have hvalue : Nat.ofDigitChars 10 (Nat.toDigits 10 decimal.digits) 0 = decimal.digits :=
    Nat.ofDigitChars_ten_toDigits
  have hne := toDigits_ne_nil decimal.digits
  have hrow : ∀ c ∈ Nat.toDigits 10 decimal.digits, isDigit c :=
    fun c hc => Lexeme.isDigit_of_mem_toDigits hc
  generalize Nat.toDigits 10 decimal.digits = row at hvalue hne hrow ⊢
  have hscale400 : (decimalScale : Int) = 400 := rfl
  rw [String.toList_append, hsign]
  split
  · obtain ⟨zeros, hbound, hdecimal⟩ :=
      isDecimal_positionalText h hne hrow (decimal.exponent + row.length - 1 + 1)
    have hlast : decimal.exponent + row.length - 1 + 1 - row.length - zeros =
        decimal.exponent - zeros := by
      omega
    rw [hvalue, hlast] at hdecimal
    exact ⟨_, _, _, rfl, hdecimal, hround zeros (by omega)⟩
  · obtain ⟨zeros, hbound, hdecimal⟩ :=
      isDecimal_scientificText h hne hrow (decimal.exponent + row.length - 1)
    have hlast : decimal.exponent + row.length - 1 + 1 - row.length - zeros =
        decimal.exponent - zeros := by
      omega
    rw [hvalue, hlast] at hdecimal
    exact ⟨_, _, _, rfl, hdecimal, hround zeros (by omega)⟩

/-- Reading a finite double undoes writing it. -/
theorem readDecimal_format (h : form.IsExact) {x : Double} (hfinite : x.isFinite) :
    readDecimal (form.format x).toList = x := by
  obtain ⟨text, digits, last, htext, hdecimal, hround⟩ := format_eq h hfinite
  rw [htext, hdecimal.readDecimal, hround]

theorem isExact_constant : constant.IsExact := ⟨Or.inl rfl, Or.inr rfl, Or.inl rfl⟩

theorem isExact_log : log.IsExact := ⟨Or.inr rfl, Or.inl rfl, Or.inl rfl⟩

end DoubleNotation

end QuantumIR
