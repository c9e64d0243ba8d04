import QuantumIR.Proofs.Word.BitVectors

/-!
Comparisons and changes of width. A word of a width is read as a natural number or as a signed one;
a comparison orders the numbers that its predicate reads, extension keeps the number that it reads,
and so a comparison at a wider width has the same answer.
-/

namespace QuantumIR

open Verification

/-- A bit vector read as a number, signed or not. -/
def Word.number {w : Nat} (signed : Bool) (a : BitVec w) : Int :=
  if signed then a.toInt else a.toNat

namespace Predicate

/-- How a predicate reads its operands. Equality is the same in both readings. -/
def Reads : Predicate → Bool → Prop
  | eq, _ | ne, _ => True
  | ugt, signed | uge, signed | ult, signed | ule, signed => signed = false
  | sgt, signed | sge, signed | slt, signed | sle, signed => signed = true

/-- What a predicate says of two numbers. -/
def Holds : Predicate → Int → Int → Prop
  | eq, a, b => a = b
  | ne, a, b => a ≠ b
  | ugt, a, b | sgt, a, b => a > b
  | uge, a, b | sge, a, b => a ≥ b
  | ult, a, b | slt, a, b => a < b
  | ule, a, b | sle, a, b => a ≤ b

end Predicate

namespace Conversion

/-- The extension that keeps a reading. -/
def extending (signed : Bool) : Conversion :=
  if signed then sext else zext

/-- The value of a conversion at a bit vector. -/
def value {v w : Nat} (conversion : Conversion) (a : BitVec v) : BitVec w :=
  match conversion with
  | zext | trunc => a.setWidth w
  | sext => a.signExtend w

theorem number_value_extending {v w : Nat} (h : v ≤ w) (signed : Bool) (a : BitVec v) :
    Word.number signed ((extending signed).value a : BitVec w) = Word.number signed a := by
  cases signed with
  | false => simp [Word.number, extending, value, BitVec.toNat_setWidth_of_le h]
  | true => simp [Word.number, extending, value, BitVec.toInt_signExtend_of_le h]

/-- Truncation takes the bits away that an extension has added. -/
theorem value_trunc_extending {v w : Nat} (h : v ≤ w) (signed : Bool) (a : BitVec v) :
    trunc.value ((extending signed).value a : BitVec w) = a := by
  cases signed with
  | false => exact (BitVec.setWidth_setWidth_of_le a h).trans (BitVec.setWidth_eq a)
  | true =>
    ext i hi
    have hi' : i < w := by omega
    simp [extending, value, BitVec.getElem_signExtend, hi, hi']

end Conversion

namespace Word

variable {width source target : UInt32}

theorem number_inj {w : Nat} {signed : Bool} {a b : BitVec w} :
    number signed a = number signed b ↔ a = b := by
  cases signed with
  | false => simp [number, BitVec.toNat_inj]
  | true => simp [number, BitVec.toInt_inj]

/-- A comparison orders the numbers that its predicate reads. -/
theorem compare_eq_true_iff (h : width ≤ 64) {predicate : Predicate} {signed : Bool}
    (hreads : predicate.Reads signed) (lhs rhs : Nat) :
    compare predicate width lhs rhs = true ↔
      predicate.Holds (number signed (bitVec width lhs)) (number signed (bitVec width rhs)) := by
  simp only [compare, ← toNat_bitVec h, signed_toNat h]
  cases predicate with
  | eq | ne => simp [Predicate.Holds, number_inj, BitVec.toNat_inj]
  | ugt | uge | ult | ule =>
    cases hreads
    simp [Predicate.Holds, number]
  | sgt | sge | slt | sle =>
    cases hreads
    simp [Predicate.Holds, number]

/-- A conversion computes its value on the low bits of a word. Extension with zeros to a narrower
width does not, since it leaves the word as it is. -/
theorem convert_eq_value (hsource : 1 ≤ source ∧ source ≤ 64) (htarget : 1 ≤ target ∧ target ≤ 64)
    {conversion : Conversion} (hextends : conversion = .zext → source ≤ target) (word : Nat) :
    convert conversion source word target =
      .ok (conversion.value (bitVec source word) : BitVec target.toNat).toNat := by
  simp only [convert, checkWidth_eq_ok.mpr hsource, checkWidth_eq_ok.mpr htarget, bind,
    Except.bind, pure, Except.pure, ← toNat_bitVec hsource.2]
  cases conversion with
  | zext =>
    have hle : source.toNat ≤ target.toNat := UInt32.le_iff_toNat_le.mp (hextends rfl)
    rw [Conversion.value, BitVec.toNat_setWidth_of_le hle]
  | sext => rw [signed_toNat hsource.2, ofInt_eq htarget.2, Conversion.value, BitVec.signExtend]
  | trunc => rw [Conversion.value, BitVec.toNat_setWidth, modulus_eq htarget.2]

/-- What a conversion computes is a word of its target, unless it extends with zeros to a narrower
width. -/
theorem convert_lt_modulus {conversion : Conversion} {word bits : Nat}
    (h : convert conversion source word target = .ok bits)
    (hextends : conversion = .zext → source ≤ target) :
    (1 ≤ target ∧ target ≤ 64) ∧ bits < modulus target := by
  obtain ⟨_, hsource, hrest⟩ := bind_eq_ok.mp h
  obtain ⟨_, htarget, -⟩ := bind_eq_ok.mp hrest
  have hwidth := checkWidth_eq_ok.mp htarget
  have hvalue := convert_eq_value (checkWidth_eq_ok.mp hsource) hwidth hextends word
  cases h.symm.trans hvalue
  refine ⟨hwidth, ?_⟩
  rw [modulus_eq hwidth.2]
  exact BitVec.isLt _

section Widths

variable {narrow wide : UInt32} (hnarrow : 1 ≤ narrow) (hle : narrow ≤ wide) (hwide : wide ≤ 64)

include hnarrow hle hwide

theorem widths_of_le : (1 ≤ narrow ∧ narrow ≤ 64) ∧ 1 ≤ wide ∧ wide ≤ 64 :=
  ⟨⟨hnarrow, UInt32.le_trans hle hwide⟩, UInt32.le_trans hnarrow hle, hwide⟩

theorem convert_trunc (word : Nat) :
    convert .trunc wide word narrow = .ok (word % 2 ^ narrow.toNat) := by
  have hwidths := widths_of_le hnarrow hle hwide
  have hdvd : 2 ^ narrow.toNat ∣ 2 ^ wide.toNat :=
    Nat.pow_dvd_pow 2 (UInt32.le_iff_toNat_le.mp hle)
  have htruncates : Conversion.trunc = .zext → wide ≤ narrow := nofun
  have hvalue := convert_eq_value hwidths.2 hwidths.1 htruncates word
  rw [hvalue, Conversion.value, BitVec.toNat_setWidth, bitVec, BitVec.toNat_ofNat,
    Nat.mod_mod_of_dvd _ hdvd]

theorem convert_extending (signed : Bool) (word : Nat) :
    convert (.extending signed) narrow word wide =
      .ok ((Conversion.extending signed).value (bitVec narrow word) :
        BitVec wide.toNat).toNat := by
  have hwidths := widths_of_le hnarrow hle hwide
  exact convert_eq_value hwidths.1 hwidths.2 (fun _ => hle) word

/-- An extension keeps the number that it reads. -/
theorem number_convert_extending {signed : Bool} {word bits : Nat}
    (h : convert (.extending signed) narrow word wide = .ok bits) :
    number signed (bitVec wide bits) = number signed (bitVec narrow word) := by
  cases h.symm.trans (convert_extending hnarrow hle hwide signed word)
  rw [bitVec_toNat, Conversion.number_value_extending (UInt32.le_iff_toNat_le.mp hle)]

/-- Truncation undoes an extension. -/
theorem convert_trunc_of_extending {signed : Bool} {word bits : Nat}
    (h : convert (.extending signed) narrow word wide = .ok bits)
    (hword : word < 2 ^ narrow.toNat) : convert .trunc wide bits narrow = .ok word := by
  have hnat : narrow.toNat ≤ wide.toNat := UInt32.le_iff_toNat_le.mp hle
  have hback := Conversion.value_trunc_extending hnat signed (bitVec narrow word)
  rw [Conversion.value, ← BitVec.toNat_inj, BitVec.toNat_setWidth,
    toNat_bitVec_of_lt hword] at hback
  cases h.symm.trans (convert_extending hnarrow hle hwide signed word)
  rw [convert_trunc hnarrow hle hwide, hback]

/-- An extension keeps every comparison in the reading that it keeps. -/
theorem compare_of_extending {predicate : Predicate} {signed : Bool}
    (hreads : predicate.Reads signed) {lhs rhs wideLhs wideRhs : Nat}
    (hlhs : convert (.extending signed) narrow lhs wide = .ok wideLhs)
    (hrhs : convert (.extending signed) narrow rhs wide = .ok wideRhs) :
    compare predicate wide wideLhs wideRhs = compare predicate narrow lhs rhs := by
  have hwidths := widths_of_le hnarrow hle hwide
  rw [Bool.eq_iff_iff, compare_eq_true_iff hwide hreads,
    compare_eq_true_iff hwidths.1.2 hreads, number_convert_extending hnarrow hle hwide hlhs,
    number_convert_extending hnarrow hle hwide hrhs]

end Widths

/-- Comparisons order the numbers that their predicates read. Truncation keeps the low bits;
extension to a wider width keeps the number it reads, truncation back gives the word again, and a
comparison in that reading has the same answer at the wider width. -/
theorem compare_and_convert_exact :
    (∀ width : UInt32, 1 ≤ width ∧ width ≤ 64 → ∀ predicate signed,
      predicate.Reads signed → ∀ lhs rhs,
        (compare predicate width lhs rhs = true ↔
          predicate.Holds (number signed (bitVec width lhs))
            (number signed (bitVec width rhs)))) ∧
      ∀ narrow wide : UInt32, 1 ≤ narrow → narrow < wide → wide ≤ 64 →
        (∀ word, convert .trunc wide word narrow = .ok (word % 2 ^ narrow.toNat)) ∧
        (∀ signed word, ∃ bits, convert (.extending signed) narrow word wide = .ok bits ∧
          bits < 2 ^ wide.toNat ∧
          number signed (bitVec wide bits) = number signed (bitVec narrow word) ∧
          (word < 2 ^ narrow.toNat → convert .trunc wide bits narrow = .ok word)) ∧
        ∀ predicate signed, predicate.Reads signed → ∀ lhs rhs wideLhs wideRhs,
          convert (.extending signed) narrow lhs wide = .ok wideLhs →
          convert (.extending signed) narrow rhs wide = .ok wideRhs →
            compare predicate wide wideLhs wideRhs = compare predicate narrow lhs rhs := by
  refine ⟨?order, fun narrow wide hnarrow hlt hwide => ?widths⟩
  case order =>
    intro width hwidth predicate signed hreads lhs rhs
    exact compare_eq_true_iff hwidth.2 hreads lhs rhs
  case widths =>
    have hle : narrow ≤ wide := UInt32.le_of_lt hlt
    refine ⟨convert_trunc hnarrow hle hwide, fun signed word => ?_, ?_⟩
    · have hbits := convert_extending hnarrow hle hwide signed word
      have hnumber := number_convert_extending hnarrow hle hwide hbits
      have hback := convert_trunc_of_extending hnarrow hle hwide hbits
      exact ⟨_, hbits, BitVec.isLt _, hnumber, hback⟩
    · intro predicate signed hreads lhs rhs wideLhs wideRhs hlhs hrhs
      exact compare_of_extending hnarrow hle hwide hreads hlhs hrhs

/-- The least byte is less than one as a signed number, and so is its extension to 32 bits. -/
theorem least_byte_extended :
    compare .slt 8 128 1 = true ∧ compare .slt 32 4294967168 1 = true ∧
      convert .trunc 32 4294967168 8 = .ok 128 := by
  obtain ⟨horder, hwidths⟩ := compare_and_convert_exact
  obtain ⟨htrunc, -, hwider⟩ := hwidths 8 32 (by decide) (by decide) (by decide)
  have hlt : number true (bitVec 8 128) < number true (bitVec 8 1) := by decide
  have hslt := (horder 8 (by decide) .slt true rfl 128 1).mpr hlt
  have hwide := hwider .slt true rfl 128 1 4294967168 1 (by decide) (by decide)
  exact ⟨hslt, hwide.trans hslt, htrunc 4294967168⟩

end Word

end QuantumIR
