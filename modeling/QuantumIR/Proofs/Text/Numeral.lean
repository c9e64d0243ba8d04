import QuantumIR.Proofs.Text.Escape
import QuantumIR.Text.Numeral

/-!
Numbers survive being written in decimal. What a number is written as holds decimal digits
only, and reading those digits gives the number back, as a count or as a 64-bit word.
-/

namespace QuantumIR.Text

theorem isDigit_eq (c : Char) : isDigit c = c.isDigit := by
  simp only [isDigit, Char.isDigit, Char.le_def, ge_iff_le]

/-- The decimal digits of a number, and nothing else. -/
theorem all_isDigit_toDigits (n : Nat) : (Nat.toDigits 10 n).all isDigit := by
  rw [List.all_eq_true]
  intro c hc
  rw [isDigit_eq]
  exact Nat.isDigit_of_mem_toDigits (by decide) (by decide) hc

theorem toDigits_ne_nil (n : Nat) : Nat.toDigits 10 n ≠ [] :=
  List.length_pos_iff.mp Nat.length_toDigits_pos

/-- A row of digits spells the number that the digits add up to. -/
theorem digits?_eq {text : List Char} (hne : text ≠ []) (h : text.all isDigit) :
    digits? text = some (Nat.ofDigitChars 10 text 0) := by
  cases text with
  | nil => exact absurd rfl hne
  | cons c rest =>
    rw [digits?, if_pos h, Nat.ofDigitChars_eq_foldl]
    · rfl
    · exact List.cons_ne_nil c rest

theorem digits?_toDigits (n : Nat) : digits? (Nat.toDigits 10 n) = some n := by
  rw [digits?_eq (toDigits_ne_nil n) (all_isDigit_toDigits n), Nat.ofDigitChars_ten_toDigits]

theorem toList_toString (n : Nat) : (toString n).toList = Nat.toDigits 10 n := by
  rw [Nat.toString_eq_repr, Nat.toList_repr]

/-- The digits of a number start with a digit, so no sign stands before them. -/
theorem toDigits_eq_cons (n : Nat) : ∃ c rest, Nat.toDigits 10 n = c :: rest ∧ isDigit c := by
  obtain ⟨c, rest, h⟩ := List.exists_cons_of_ne_nil (toDigits_ne_nil n)
  have hall := all_isDigit_toDigits n
  rw [h, List.all_cons, Bool.and_eq_true] at hall
  exact ⟨c, rest, h, hall.1⟩

theorem isDigit_ne {c d : Char} (hc : isDigit c) (hd : isDigit d = false) : c ≠ d := by
  rintro rfl
  rw [hc] at hd
  exact Bool.noConfusion hd

/-- A count below the end of the machine words is read back. -/
theorem count?_toString {n : Nat} (h : n < UInt64.size) :
    count? (toString n).toList = some n := by
  obtain ⟨c, rest, heq, hc⟩ := toDigits_eq_cons n
  have hplus : c ≠ '+' := isDigit_ne hc (by decide)
  have hdigits := digits?_toDigits n
  rw [toList_toString]
  rw [heq] at hdigits ⊢
  simp [count?, hplus, hdigits, h]

/-- A natural number in the range of unsigned words is read as the word of its bits. -/
theorem word64?_toDigits {n : Nat} (h : n < UInt64.size) :
    word64? (Nat.toDigits 10 n) = some (Int64.ofNat n) := by
  obtain ⟨c, rest, heq, hc⟩ := toDigits_eq_cons n
  have hminus : c ≠ '-' := isDigit_ne hc (by decide)
  have hdigits := digits?_toDigits n
  rw [heq] at hdigits ⊢
  simp [word64?, hminus, hdigits, h]

theorem word64?_neg_toDigits {n : Nat} (h : 2 * n ≤ UInt64.size) :
    word64? ('-' :: Nat.toDigits 10 n) = some (Int64.ofInt (-(n : Int))) := by
  simp [word64?, digits?_toDigits, h]

/-- What an integer is written as: the digits of its magnitude, after a minus sign if it is
negative. -/
theorem toList_toString_int (n : Int) :
    (toString n).toList =
      if n < 0 then '-' :: Nat.toDigits 10 n.natAbs else Nat.toDigits 10 n.natAbs := by
  cases n with
  | ofNat n =>
    rw [if_neg (by simp)]
    exact toList_toString n
  | negSucc n =>
    rw [if_pos (Int.negSucc_lt_zero n)]
    show ("-" ++ Nat.repr (n + 1)).toList = _
    rw [String.toList_append, Nat.toList_repr]
    rfl

/-- Every signed word is read back. -/
theorem word64?_toString (n : Int64) : word64? (toString n.toInt).toList = some n := by
  have hlow := n.le_toInt
  have hhigh := n.toInt_lt
  rw [toList_toString_int]
  split
  case isTrue h =>
    rw [word64?_neg_toDigits (by rw [show UInt64.size = 2 ^ 64 from rfl]; omega)]
    congr 1
    rw [show -((n.toInt.natAbs : Nat) : Int) = n.toInt by omega, Int64.ofInt_toInt]
  case isFalse h =>
    rw [word64?_toDigits (by rw [show UInt64.size = 2 ^ 64 from rfl]; omega)]
    congr 1
    rw [← Int64.ofInt_eq_ofNat, show ((n.toInt.natAbs : Nat) : Int) = n.toInt by omega,
      Int64.ofInt_toInt]

end QuantumIR.Text
