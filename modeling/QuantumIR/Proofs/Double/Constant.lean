import QuantumIR.Proofs.Double.Decimals

/-!
Floating-point constants as text. Whether a double is written with its shortest decimal or by
its bits, the text is one token, and that token holds the same bits.
-/

namespace QuantumIR

open Text

namespace Double

/-- A finite constant is a digit, a point, more digits and an exponent. -/
theorem format_finite {x : Double} (hfinite : x.isFinite) :
    ∃ d fraction, ∃ exponent : Int, isDigit d ∧ fraction ≠ [] ∧ (∀ c ∈ fraction, isDigit c) ∧
      (DoubleNotation.constant.format x).toList =
        x.signText ++ d :: '.' :: (fraction ++ 'e' :: (toString exponent).toList) := by
  obtain ⟨decimal, hdecimal⟩ : ∃ decimal, decimal = x.shortest .away := ⟨_, rfl⟩
  have hall := all_isDigit_toDigits decimal.digits
  have hsign : (if x.negative then "-" else "").toList = x.signText := by
    rw [signText]
    split <;> rfl
  have hformat : (DoubleNotation.constant.format x).toList =
      x.signText ++ (DoubleNotation.constant.scientificText (Nat.toDigits 10 decimal.digits)
        (decimal.exponent + (Nat.toDigits 10 decimal.digits).length - 1)).toList := by
    rw [DoubleNotation.format, if_pos hfinite, ← hsign, hdecimal]
    exact String.toList_append
  obtain ⟨d, rest, hdigits, hd⟩ := toDigits_eq_cons decimal.digits
  rw [hdigits] at hformat hall
  cases rest with
  | nil =>
    refine ⟨d, ['0'], decimal.exponent, hd, by simp, by simp [isDigit], ?_⟩
    rw [hformat]
    simp only [DoubleNotation.scientificText, DoubleNotation.constant, ite_self,
      String.toList_append, String.toList_ofList]
    simp
  | cons e others =>
    refine ⟨d, e :: others, decimal.exponent + (d :: e :: others).length - 1, hd, by simp, ?_, ?_⟩
    · rw [List.all_cons, Bool.and_eq_true] at hall
      exact List.all_eq_true.mp hall.2
    · rw [hformat]
      simp only [DoubleNotation.scientificText, DoubleNotation.constant, ite_self,
        String.toList_append, String.toList_ofList]
      simp

end Double

namespace Lexeme

open Double

/-- What an integer is written as: a minus sign or none, and digits. -/
theorem toString_int_cases (n : Int) : ∃ sign digits, (toString n).toList = sign ++ digits ∧
    (sign = [] ∨ sign = ['-']) ∧ digits ≠ [] ∧ ∀ c ∈ digits, isDigit c := by
  rw [toList_toString_int]
  split
  case isTrue h =>
    exact ⟨['-'], _, rfl, Or.inr rfl, toDigits_ne_nil _, fun c hc => isDigit_of_mem_toDigits hc⟩
  case isFalse h =>
    exact ⟨[], _, rfl, Or.inl rfl, toDigits_ne_nil _, fun c hc => isDigit_of_mem_toDigits hc⟩

/-- An exponent whose digits nothing goes on with is taken whole. -/
theorem exponentLength_append {sign digits post : List Char} (hsign : sign = [] ∨ sign = ['-'])
    (hne : digits ≠ []) (hall : ∀ c ∈ digits, isDigit c) (hpost : Closed post) :
    Cut.exponentLength ('e' :: (sign ++ digits ++ post)) = 1 + sign.length + digits.length := by
  have hwhile : (digits ++ post).takeWhile isDigit = digits :=
    takeWhile_append_stop hall fun c rest heq => hpost.not_digit heq
  have hempty : digits.isEmpty = false := by simpa using hne
  rcases hsign with rfl | rfl
  · obtain ⟨c, rest, heq⟩ := List.exists_cons_of_ne_nil hne
    have hc : isDigit c := hall c (by simp [heq])
    have hsign : Cut.exponentLength ('e' :: (digits ++ post)) =
        if ((digits ++ post).takeWhile isDigit).isEmpty then 0
        else 1 + 0 + ((digits ++ post).takeWhile isDigit).length := by
      rw [Cut.exponentLength, if_pos (Or.inl rfl)]
      · simp only [List.drop_zero]
      · rintro others hcons
        rw [heq] at hcons
        exact isDigit_ne hc (by decide) (List.cons.inj hcons).1
      · rintro others hcons
        rw [heq] at hcons
        exact isDigit_ne hc (by decide) (List.cons.inj hcons).1
    rw [List.nil_append, hsign, hwhile, hempty]
    simp
  · rw [List.singleton_append, List.cons_append, Cut.exponentLength, if_pos (Or.inl rfl)]
    simp only [List.drop_one, List.tail_cons, hwhile, hempty]
    simp

/-- A finite constant is one token, which holds its bits. -/
theorem Spells.finite {x : Double} (hfinite : x.isFinite) :
    Spells Closed (DoubleNotation.constant.format x).toList [some (.float x)] := by
  have hread := DoubleNotation.readDecimal_format DoubleNotation.isExact_constant hfinite
  obtain ⟨d, fraction, exponent, hd, hne, hfraction, hformat⟩ := format_finite hfinite
  obtain ⟨sign, digits, hexponent, hsign, hdigits, hall⟩ := toString_int_cases exponent
  obtain ⟨text, htext⟩ : ∃ text, text = (DoubleNotation.constant.format x).toList := ⟨_, rfl⟩
  rw [hexponent] at hformat
  rw [← htext] at hformat hread ⊢
  have hlength : text.length = x.signText.length + 1 + (1 + fraction.length) +
      (1 + sign.length + digits.length) := by
    rw [hformat]
    simp
    omega
  have hchars : ∀ c ∈ text, isNameChar c := by
    intro c hc
    rw [hformat] at hc
    simp only [List.mem_append, List.mem_cons] at hc
    rcases hc with hc | rfl | rfl | hc | rfl | hc | hc
    · rcases x.signText_cases with h | h
      · exact absurd hc (by simp [h])
      · rw [h, List.mem_singleton] at hc
        exact hc ▸ by decide
    · exact isNameChar_of_isDigit hd
    · decide
    · exact isNameChar_of_isDigit (hfraction c hc)
    · decide
    · rcases hsign with h | h
      · exact absurd hc (by simp [h])
      · rw [h, List.mem_singleton] at hc
        exact hc ▸ by decide
    · exact isNameChar_of_isDigit (hall c hc)
  refine Spells.run (by rw [hformat]; simp) hchars ?_
  intro post hpost
  have hwhole : Cut.wholeLength (text ++ post) = x.signText.length + 1 := by
    have hrow : ∀ c ∈ [d], isDigit c := List.forall_mem_singleton.mpr hd
    rw [hformat, List.append_assoc]
    refine wholeLength_append x.signText_cases (List.cons_ne_nil _ _) hrow ?_
    intro c rest heq
    cases heq
    decide
  have hbits : Cut.bitsOfHex? (text ++ post) = none := by
    refine bitsOfHex?_eq_none ?_
    intro rest heq
    rw [hformat] at heq
    rcases x.signText_cases with h | h
    · rw [h] at heq
      simp at heq
    · rw [h] at heq
      simp at heq
  have hafter : (text ++ post).drop (x.signText.length + 1) =
      '.' :: (fraction ++ 'e' :: (sign ++ digits ++ post)) := by
    rw [hformat]
    simp [List.drop_append]
  have hfractionLength : Cut.fractionLength ('.' :: (fraction ++ 'e' :: (sign ++ digits ++ post)))
      = 1 + fraction.length := by
    have hwhile : (fraction ++ 'e' :: (sign ++ digits ++ post)).takeWhile isDigit = fraction := by
      refine takeWhile_append_stop hfraction ?_
      intro c rest heq
      cases heq
      decide
    rw [Cut.fractionLength, hwhile]
  have hexponentLength : Cut.exponentLength
      ((text ++ post).drop (x.signText.length + 1 + (1 + fraction.length))) =
        1 + sign.length + digits.length := by
    rw [← List.drop_drop, hafter, Nat.add_comm 1, List.drop_succ_cons, List.drop_left]
    exact exponentLength_append hsign hdigits hall hpost
  have hnumber : Cut.number (text ++ post) = ⟨text.length, some (.float x)⟩ := by
    rw [Cut.number, hwhole, if_neg (by omega), hbits]
    simp only [hafter, hfractionLength, hexponentLength]
    rw [if_neg (by omega), ← hlength, List.take_left, hread]
  obtain ⟨c, rest, heq⟩ := List.exists_cons_of_ne_nil (show text ≠ [] by rw [hformat]; simp)
  have hc : c = '-' ∨ isDigit c := by
    rw [hformat] at heq
    rcases x.signText_cases with h | h
    · rw [h] at heq
      exact Or.inr ((List.cons.inj heq).1 ▸ hd)
    · rw [h] at heq
      exact Or.inl (List.cons.inj heq).1.symm
  rw [← hnumber, heq, List.cons_append, longest_eq_number hc]

theorem isNameChar_hexDigit {n : Nat} (h : n < 16) : isNameChar (hexDigit n) := by
  interval_cases n <;> decide

/-- Hexadecimal digits from the highest on add up to the number they were taken from. -/
theorem foldl_hexDigits {n count : Nat} (hn : n < 16 ^ count) (k : Nat) (hk : k ≤ count) :
    ((List.range k).map fun i => n / 16 ^ (count - 1 - i) % 16).foldl
      (fun value d => 16 * value + d) 0 = n / 16 ^ (count - k) := by
  induction k with
  | zero => exact (Nat.div_eq_of_lt hn).symm
  | succ k ih =>
    have hindex : count - 1 - k = count - (k + 1) := by omega
    have hstep : count - k = count - (k + 1) + 1 := by omega
    rw [List.range_succ, List.map_append, List.foldl_append, ih (by omega), List.map_singleton,
      List.foldl_cons, List.foldl_nil, hindex, hstep, Nat.pow_succ, ← Nat.div_div_eq_div_mul]
    omega

/-- The sixteen digits of a double's bits. -/
theorem toList_hex64 (n : Nat) : (DoubleNotation.hex64 n).toList =
    (List.range 16).map fun i => hexDigit (n / 16 ^ (16 - 1 - i) % 16) := by
  rw [DoubleNotation.hex64, String.toList_ofList]
  rfl

theorem bitsOfHex?_hex64 (x : Double) (post : List Char) :
    Cut.bitsOfHex? ('0' :: 'x' :: ((DoubleNotation.hex64 x.bits.toNat).toList ++ post)) =
      some x := by
  have hlength : (DoubleNotation.hex64 x.bits.toNat).toList.length = 16 := by
    rw [toList_hex64, List.length_map, List.length_range]
  have hvalues : (DoubleNotation.hex64 x.bits.toNat).toList.mapM hexValue? =
      some ((List.range 16).map fun i => x.bits.toNat / 16 ^ (16 - 1 - i) % 16) := by
    rw [toList_hex64, List.mapM_map]
    have hdigit : ∀ i, hexValue? (hexDigit (x.bits.toNat / 16 ^ (16 - 1 - i) % 16)) =
        some (x.bits.toNat / 16 ^ (16 - 1 - i) % 16) :=
      fun i => hexValue?_hexDigit (Nat.mod_lt _ (by decide))
    simp only [Function.comp_def, hdigit]
    exact List.mapM_pure
  have hbits : x.bits.toNat < 16 ^ 16 := x.bits.toNat_lt
  rw [Cut.bitsOfHex?, List.take_append_of_le_length (by omega), List.take_of_length_le (by omega),
    hvalues]
  simp only [Option.bind_eq_bind, Option.bind_some, List.length_map, List.length_range, if_true]
  rw [foldl_hexDigits hbits 16 le_rfl, Nat.sub_self, Nat.pow_zero, Nat.div_one, UInt64.ofNat_toNat]

/-- A constant that is not finite is one token, which holds its bits. -/
theorem Spells.hex (x : Double) :
    Spells Closed ("0x" ++ DoubleNotation.hex64 x.bits.toNat).toList [some (.float x)] := by
  have heq : ("0x" ++ DoubleNotation.hex64 x.bits.toNat).toList =
      '0' :: 'x' :: (DoubleNotation.hex64 x.bits.toNat).toList := by
    rw [String.toList_append]
    rfl
  have hlength : (DoubleNotation.hex64 x.bits.toNat).toList.length = 16 := by
    rw [toList_hex64, List.length_map, List.length_range]
  rw [heq]
  refine Spells.run (List.cons_ne_nil _ _) ?_ ?_
  · intro c hc
    rcases List.mem_cons.mp hc with rfl | hc
    · decide
    rcases List.mem_cons.mp hc with rfl | hc
    · decide
    rw [toList_hex64, List.mem_map] at hc
    obtain ⟨i, -, rfl⟩ := hc
    exact isNameChar_hexDigit (Nat.mod_lt _ (by decide))
  · intro post hpost
    have hwhole : Cut.wholeLength
        ('0' :: 'x' :: ((DoubleNotation.hex64 x.bits.toNat).toList ++ post)) = 1 := by
      have hrow : ∀ c ∈ ['0'], isDigit c := List.forall_mem_singleton.mpr rfl
      refine wholeLength_append (Or.inl rfl) (List.cons_ne_nil _ _) hrow ?_
      intro c rest heq
      cases heq
      decide
    rw [List.cons_append, List.cons_append, longest_eq_number (Or.inr (by decide)), Cut.number,
      hwhole, if_neg (by decide), bitsOfHex?_hex64]
    simp [hlength]

/-- Every floating-point constant is one token, which holds its bits. -/
theorem Spells.float (x : Double) :
    Spells Closed (DoubleNotation.constant.format x).toList [some (.float x)] := by
  cases hfinite : x.isFinite with
  | true => exact Spells.finite hfinite
  | false =>
    have hformat : DoubleNotation.constant.format x =
        "0x" ++ DoubleNotation.hex64 x.bits.toNat := by
      rw [DoubleNotation.format, if_neg (by simp [hfinite])]
      rfl
    rw [hformat]
    exact Spells.hex x

end Lexeme

end QuantumIR
