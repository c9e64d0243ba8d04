import QuantumIR.Proofs.Word.BitVectors

/-!
Arithmetic of a fixed width. Every operator computes what the operation of its name does on bit
vectors, and it has no value exactly where a shift is too long, a divisor is zero or a signed
quotient does not fit.
-/

namespace QuantumIR

open Verification

namespace BinaryOp

/-- The value of an operator at two bit vectors of one width. -/
def value {w : Nat} (op : BinaryOp) (a b : BitVec w) : BitVec w :=
  match op with
  | add => a + b
  | sub => a - b
  | mul => a * b
  | and => a &&& b
  | or => a ||| b
  | xor => a ^^^ b
  | shl => a <<< b
  | lshr => a >>> b
  | ashr => a.sshiftRight' b
  | udiv => a / b
  | sdiv => a.sdiv b
  | urem => a % b
  | srem => a.srem b

/-- Why an operator has no value at two bit vectors: it shifts by all bits or more, it divides by
zero, or it divides the least number by minus one. -/
inductive Faults {width : UInt32} (a b : BitVec width.toNat) : BinaryOp → ArithmeticFault → Prop
  | shift {op : BinaryOp} : op ∈ [shl, lshr, ashr] → width.toNat ≤ b.toNat →
      Faults a b op (.shift op b.toNat width)
  | divisionByZero {op : BinaryOp} : op ∈ [udiv, sdiv, urem, srem] → b = 0 →
      Faults a b op (.divisionByZero op)
  | overflow : a = BitVec.intMin width.toNat → b = -1 → Faults a b sdiv (.overflow a.toInt width)

end BinaryOp

namespace Word

variable {width : UInt32} {op : BinaryOp}

theorem toInt_neg_one {w : Nat} (hw : 0 < w) : (-1 : BitVec w).toInt = -1 := by
  change (-1#w).toInt = -1
  rw [BitVec.neg_one_eq_allOnes, BitVec.toInt_allOnes, if_pos hw]

/-- The quotient that does not fit is that of the least number by minus one. -/
theorem overflows_iff (h : 1 ≤ width ∧ width ≤ 64) {a b : BitVec width.toNat} :
    2 * a.toInt = -(modulus width : Int) ∧ b.toInt = -1 ↔
      a = BitVec.intMin width.toNat ∧ b = -1 := by
  have hpos : 0 < width.toNat := UInt32.le_iff_toNat_le.mp h.1
  have hleast : 2 * (BitVec.intMin width.toNat).toInt = -(modulus width : Int) := by
    have hpow : 2 ^ (width.toNat - 1) * 2 = modulus width := by
      rw [Nat.two_pow_pred_mul_two hpos, modulus_eq h.2]
    rw [BitVec.toInt_intMin_of_pos hpos, ← hpow]
    push_cast
    ring
  rw [← BitVec.toInt_inj, ← BitVec.toInt_inj (y := -1), toInt_neg_one hpos]
  omega

theorem ofInt_sdiv {w : Nat} (a b : BitVec w) :
    BitVec.ofInt w (a.toInt.tdiv b.toInt) = a.sdiv b := by
  rw [← BitVec.toInt_inj, BitVec.toInt_ofInt, BitVec.toInt_sdiv]

theorem ofInt_srem {w : Nat} (a b : BitVec w) :
    BitVec.ofInt w (a.toInt.tmod b.toInt) = a.srem b := by
  rw [← BitVec.toInt_srem, BitVec.ofInt_toInt]

theorem ofInt_ashr {w : Nat} (a : BitVec w) (amount : Nat) :
    BitVec.ofInt w (a.toInt.fdiv (Nat.pow 2 amount)) = a.sshiftRight amount := by
  rw [BitVec.sshiftRight, Int.shiftRight_eq_div_pow,
    Int.fdiv_eq_ediv_of_nonneg _ (Int.natCast_nonneg _)]
  rfl

/-- An operator sees the low bits of its operands. -/
theorem binary_eq_bitVec (h : width ≤ 64) (op : BinaryOp) (lhs rhs : Nat) :
    binary op width lhs rhs =
      binary op width (bitVec width lhs).toNat (bitVec width rhs).toNat := by
  simp only [binary, toNat_bitVec h, Nat.mod_mod]

/-- An operator that cannot fail at two bit vectors has its value there. -/
theorem binary_of_sound (h : 1 ≤ width ∧ width ≤ 64) {a b : BitVec width.toNat}
    (hsound : ∀ fault, ¬op.Faults a b fault) :
    binary op width a.toNat b.toNat = .ok (op.value a b).toNat := by
  have hshift : op ∈ [.shl, .lshr, .ashr] → checkShift op width b.toNat = .ok () := by
    intro hop
    have hlt : b.toNat < width.toNat := by
      by_contra hlong
      exact hsound _ (.shift hop (Nat.not_lt.mp hlong))
    exact if_pos hlt
  have hdivisor : op ∈ [.udiv, .sdiv, .urem, .srem] → checkDivisor op b.toNat = .ok () := by
    intro hop
    have hne : b.toNat ≠ 0 := by
      intro hzero
      exact hsound _ (.divisionByZero hop (BitVec.eq_of_toNat_eq hzero))
    exact if_neg hne
  simp only [binary, checkWidth_eq_ok.mpr h, bind, Except.bind, pure, Except.pure,
    toNat_mod_modulus h.2, signed_toNat h.2, ofInt_eq h.2]
  cases op with
  | add | mul | and | or | xor => simp [BinaryOp.value, modulus_eq h.2]
  | sub => simp [BinaryOp.value, modulus_eq h.2, BitVec.toNat_sub, Nat.add_comm]
  | shl => simp [BinaryOp.value, modulus_eq h.2, hshift, Nat.shiftLeft_eq]
  | lshr => simp [BinaryOp.value, hshift, Nat.shiftRight_eq_div_pow]
  | ashr => simp only [hshift, List.mem_cons, true_or, or_true, ofInt_ashr, BinaryOp.value,
      BitVec.sshiftRight']
  | udiv | urem => simp [BinaryOp.value, hdivisor]
  | srem => simp only [hdivisor, List.mem_cons, true_or, or_true, ofInt_srem, BinaryOp.value]
  | sdiv =>
    have hfits : ¬(2 * a.toInt = -(modulus width : Int) ∧ b.toInt = -1) := by
      intro hoverflows
      obtain ⟨hleast, hminus⟩ := (overflows_iff h).mp hoverflows
      exact hsound _ (.overflow hleast hminus)
    simp only [hdivisor, List.mem_cons, true_or, or_true, if_neg hfits, ofInt_sdiv,
      BinaryOp.value]

/-- An operator that may not be applied to two bit vectors reports why. -/
theorem binary_of_faults (h : 1 ≤ width ∧ width ≤ 64) {a b : BitVec width.toNat}
    {fault : ArithmeticFault} (hfault : op.Faults a b fault) :
    binary op width a.toNat b.toNat = .error (.arithmetic fault) := by
  simp only [binary, checkWidth_eq_ok.mpr h, bind, Except.bind, pure, Except.pure,
    toNat_mod_modulus h.2, signed_toNat h.2]
  cases hfault with
  | shift hop hlong =>
    have hshift : checkShift op width b.toNat = .error (.arithmetic (.shift op b.toNat width)) :=
      if_neg (Nat.not_lt.mpr hlong)
    simp only [List.mem_cons, List.not_mem_nil, or_false] at hop
    obtain rfl | rfl | rfl := hop <;> simp only [hshift]
  | divisionByZero hop hzero =>
    have hdivisor : checkDivisor op b.toNat = .error (.arithmetic (.divisionByZero op)) := by
      simp [checkDivisor, hzero]
    simp only [List.mem_cons, List.not_mem_nil, or_false] at hop
    obtain rfl | rfl | rfl | rfl := hop <;> simp only [hdivisor]
  | overflow hleast hminus =>
    have hoverflows := (overflows_iff h).mpr ⟨hleast, hminus⟩
    have hdivisor : checkDivisor .sdiv b.toNat = .ok () := by
      have hne : b.toNat ≠ 0 := by
        intro hzero
        simp [BitVec.eq_of_toNat_eq (y := 0) hzero] at hoverflows
      exact if_neg hne
    simp only [hdivisor, if_pos hoverflows]
    rfl

/-- An operator has its value at two words or reports why it has none there. -/
theorem binary_eq_ok_or_error (h : 1 ≤ width ∧ width ≤ 64) (op : BinaryOp) (lhs rhs : Nat) :
    (∀ fault, ¬op.Faults (bitVec width lhs) (bitVec width rhs) fault) ∧
        binary op width lhs rhs = .ok (op.value (bitVec width lhs) (bitVec width rhs)).toNat ∨
      ∃ fault, op.Faults (bitVec width lhs) (bitVec width rhs) fault ∧
        binary op width lhs rhs = .error (.arithmetic fault) := by
  rw [binary_eq_bitVec h.2]
  by_cases hfaults : ∃ fault, op.Faults (bitVec width lhs) (bitVec width rhs) fault
  · obtain ⟨fault, hfault⟩ := hfaults
    exact .inr ⟨fault, hfault, binary_of_faults h hfault⟩
  · have hsound := not_exists.mp hfaults
    exact .inl ⟨hsound, binary_of_sound h hsound⟩

/-- What an operator computes is a word of its width. -/
theorem binary_lt_modulus {lhs rhs bits : Nat} (h : binary op width lhs rhs = .ok bits) :
    (1 ≤ width ∧ width ≤ 64) ∧ bits < modulus width := by
  obtain ⟨_, hcheck, -⟩ := bind_eq_ok.mp h
  have hwidth := checkWidth_eq_ok.mp hcheck
  refine ⟨hwidth, ?_⟩
  obtain ⟨-, hok⟩ | ⟨_, -, herror⟩ := binary_eq_ok_or_error hwidth op lhs rhs
  · cases h.symm.trans hok
    rw [modulus_eq hwidth.2]
    exact BitVec.isLt _
  · cases h.symm.trans herror

/-- Minus one divides every number, the least one included, although that quotient does not
fit. -/
theorem srem_neg_one (h : 1 ≤ width ∧ width ≤ 64) {lhs rhs : Nat}
    (hrhs : bitVec width rhs = -1) : binary .srem width lhs rhs = .ok 0 := by
  have hpos : 0 < width.toNat := UInt32.le_iff_toNat_le.mp h.1
  have hne : bitVec width rhs ≠ 0 := by
    intro hzero
    have hminus := toInt_neg_one hpos
    rw [← hrhs, hzero] at hminus
    simp at hminus
  have hsound : ∀ fault,
      ¬BinaryOp.srem.Faults (bitVec width lhs) (bitVec width rhs) fault := by
    rintro fault (⟨hop, -⟩ | ⟨-, hzero⟩)
    · simp at hop
    · exact hne hzero
  have hvalue : (bitVec width lhs).srem (bitVec width rhs) = 0 := by
    rw [← BitVec.toInt_inj, BitVec.toInt_srem, hrhs, toInt_neg_one hpos, Int.tmod_neg,
      Int.tmod_one]
    simp
  rw [binary_eq_bitVec h.2, binary_of_sound h hsound, BinaryOp.value, hvalue]
  simp

/-- Arithmetic of a width is that of bit vectors. An operator sees the low bits of its operands;
it computes its value on them, which is a word of the width, unless a shift is too long, a divisor
is zero or a quotient does not fit, and then it reports that. -/
theorem binary_exact (h : 1 ≤ width ∧ width ≤ 64) (op : BinaryOp) (lhs rhs : Nat) :
    (∀ bits, binary op width lhs rhs = .ok bits ↔
      (∀ fault, ¬op.Faults (bitVec width lhs) (bitVec width rhs) fault) ∧
        bits = (op.value (bitVec width lhs) (bitVec width rhs)).toNat) ∧
      (∀ error, binary op width lhs rhs = .error error ↔
        ∃ fault, op.Faults (bitVec width lhs) (bitVec width rhs) fault ∧
          error = .arithmetic fault) ∧
      (∀ bits, binary op width lhs rhs = .ok bits → bits < 2 ^ width.toNat) ∧
      binary op width lhs rhs =
        binary op width (lhs % 2 ^ width.toNat) (rhs % 2 ^ width.toNat) ∧
      (bitVec width lhs = BitVec.intMin width.toNat → bitVec width rhs = -1 →
        binary .srem width lhs rhs = .ok 0) := by
  have hcases := binary_eq_ok_or_error h op lhs rhs
  refine ⟨fun bits => ⟨?value, ?sound⟩, fun error => ⟨?reason, ?fault⟩, ?range, ?low, ?least⟩
  case value =>
    intro hbits
    obtain ⟨hsound, hok⟩ | ⟨_, -, herror⟩ := hcases
    · exact ⟨hsound, Except.ok.inj (hbits.symm.trans hok)⟩
    · cases hbits.symm.trans herror
  case sound =>
    rintro ⟨hsound, rfl⟩
    rw [binary_eq_bitVec h.2, binary_of_sound h hsound]
  case reason =>
    intro hreason
    obtain ⟨-, hok⟩ | ⟨fault, hfault, herror⟩ := hcases
    · cases hreason.symm.trans hok
    · exact ⟨fault, hfault, Except.error.inj (hreason.symm.trans herror)⟩
  case fault =>
    rintro ⟨fault, hfault, rfl⟩
    rw [binary_eq_bitVec h.2, binary_of_faults h hfault]
  case range =>
    intro bits hbits
    rw [← modulus_eq h.2]
    exact (binary_lt_modulus hbits).2
  case low =>
    rw [binary_eq_bitVec h.2, toNat_bitVec h.2, toNat_bitVec h.2, modulus_eq h.2]
  case least =>
    intro _ hrhs
    exact srem_neg_one h hrhs

/-- Eight bits: the byte `0x80`, one bit above it set, and the byte of all ones. The quotient
overflows and the remainder is zero. -/
theorem binary_least_byte_by_all_ones :
    binary .sdiv 8 384 255 = .error (.arithmetic (.overflow (-128) 8)) ∧
      binary .srem 8 384 255 = .ok 0 := by
  obtain ⟨-, herror, -, -, hsrem⟩ := @binary_exact 8 (by decide) .sdiv 384 255
  have hleast : bitVec 8 384 = BitVec.intMin 8 := by decide
  have hminus : bitVec 8 255 = -1 := by decide
  refine ⟨(herror _).mpr ⟨_, .overflow hleast hminus, ?_⟩, hsrem hleast hminus⟩
  rw [hleast]
  rfl

end Word

end QuantumIR
