import QuantumIR.Eval.Frame
import QuantumIR.Proofs.Accepted.Canonical
import QuantumIR.Proofs.Accepted.Constants
import QuantumIR.Proofs.Accepted.Literals
import QuantumIR.Proofs.Double.RoundTrip
import QuantumIR.Proofs.Token.Literals
import QuantumIR.Proofs.Word.BitVectors

/-!
What integer literals mean. A literal is read as the word of its number, and what is made of the
word depends on where the literal stands: a constant of an integer type is a remainder and so has
no sign, but an address and a floating-point constant take the sign of the word for that of the
number.
-/

namespace QuantumIR

open Reading

/-- A constant of a width is the remainder of its number. -/
theorem Datum.ofConstant_ofInt (n : Int) {width : UInt32} (hone : 1 ≤ width) (hwidth : width ≤ 64) :
    ofConstant (.int width) (Int64.ofInt n) = .ok (.int width (n % 2 ^ width.toNat).toNat) := by
  have hbits : Word.truncate (Int64.ofInt n) width = (n % 2 ^ width.toNat).toNat := by
    rw [Word.truncate_ofInt, Word.ofInt, Word.modulus_eq hwidth, Nat.cast_pow, Nat.cast_ofNat]
  change (do
    Word.checkWidth width
    return int width (Word.truncate (Int64.ofInt n) width)) = _
  rw [Word.checkWidth_eq_ok.mpr ⟨hone, hwidth⟩, hbits]
  rfl

namespace Value

/-- What a number means as the literal of a value that is evaluated at a type: the remainder of the
number as a constant of a width, the index of a pointer as an address, and a double that is not
negative if the number is not. -/
def Means (value : Value) (place : LiteralPlace) (ty : Ty) (n : Int) : Prop :=
  match place with
  | .alone =>
    (∀ width frame, ty = .int width → 1 ≤ width → width ≤ 64 →
      Frame.datum frame ty value = .ok (.int width (n % 2 ^ width.toNat).toNat)) ∧
    (∀ frame, ty = .double → 0 ≤ n →
      ∃ x, Frame.datum frame ty value = .ok (.double x) ∧ x.negative = false)
  | .address => ∀ frame, 0 ≤ n → Frame.datum frame ty value = .ok (.pointer (.index n.toNat))

variable {ty : Ty} {n : Int}

/-- A constant of an integer type means its number, a floating-point constant only below the sign
bit. -/
theorem means_ofLiteral_alone (hlow : -2 ^ 63 ≤ n) (hhigh : n < 2 ^ 64) :
    (ofLiteral .alone ty (Int64.ofInt n)).Means .alone ty n ↔ n < 2 ^ 63 ∨ ty ≠ .double := by
  have hword := Word.toInt_ofInt hlow hhigh
  have hint : ∀ width frame, ty = .int width → 1 ≤ width → width ≤ 64 →
      Frame.datum frame ty (ofLiteral .alone ty (Int64.ofInt n)) =
        .ok (.int width (n % 2 ^ width.toNat).toNat) := by
    rintro width frame hty hone hwidth
    subst hty
    exact Datum.ofConstant_ofInt n hone hwidth
  have hdouble : ∀ frame : Frame, frame.datum .double (ofLiteral .alone .double (Int64.ofInt n)) =
      .ok (.double (.ofInt (Int64.ofInt n).toInt)) := fun _ => rfl
  constructor
  · rintro ⟨-, hmeans⟩
    by_contra hupper
    obtain ⟨hge, hty⟩ := not_or.mp hupper
    obtain rfl := not_not.mp hty
    obtain ⟨x, hx, hsign⟩ := hmeans default rfl (by omega)
    rw [hdouble, hword, if_neg hge] at hx
    cases hx
    rw [Double.negative_ofInt, decide_eq_false_iff_not] at hsign
    omega
  · intro hcase
    refine ⟨hint, ?_⟩
    intro frame hty hn
    subst hty
    have hlt : n < 2 ^ 63 := hcase.resolve_right (absurd rfl)
    refine ⟨_, hdouble frame, ?_⟩
    rw [hword, if_pos hlt, Double.negative_ofInt]
    exact decide_eq_false (Int.not_lt.mpr hn)

/-- An address means its number only below the sign bit. -/
theorem means_ofLiteral_address (hlow : -2 ^ 63 ≤ n) (hhigh : n < 2 ^ 64) :
    (ofLiteral .address ty (Int64.ofInt n)).Means .address ty n ↔ n < 2 ^ 63 := by
  have hword := Word.toInt_ofInt hlow hhigh
  have hdatum : ∀ frame : Frame, frame.datum ty (ofLiteral .address ty (Int64.ofInt n)) =
      if 0 ≤ (Int64.ofInt n).toInt then .ok (.pointer (.index (Int64.ofInt n).toInt.toNat))
      else .error (.operand (.negativeIndex (Int64.ofInt n))) := fun _ => rfl
  constructor
  · intro hmeans
    by_contra hge
    have hindex := hmeans default (by omega)
    rw [hdatum, hword, if_neg hge, if_neg (by omega)] at hindex
    cases hindex
  · intro hlt frame hn
    rw [hdatum, hword, if_pos hlt, if_pos hn]

end Value

namespace Module

/-- What the integer literals mean in a text that can be read. The values that the instructions of
the module read are read from the tokens of the text one after the other. Where an integer literal
stands, its characters spell a number between the least signed and the greatest unsigned word, and
the value that is read there means that number: for every number at an integer type, and exactly
for those below the sign bit as an address or a floating-point constant. Every address is read
where a literal stands. -/
theorem literals_of_parse {source : String} {module : Module} (h : parse source = .ok module) :
    ∃ tokens left,
      Lexeme.scan (Source.blankMetadata source.toList) = tokens.map Lexeme.ofPlaced ∧
      Trail tokens module.uses left ∧
      ∀ ty value state after, state.rest <:+ tokens → Value.read ty state = .ok (value, after) →
        (∀ index, value = .address index → ∃ span, Literal state.rest .address index span) ∧
        ∀ place word span, Literal state.rest place word span → ∃ piece n,
          Lexeme.StandsAt (Source.blankMetadata source.toList) piece span ∧
          Text.decimal? piece = some n ∧ -2 ^ 63 ≤ n ∧ n < 2 ^ 64 ∧
          (value.Means place ty n ↔ n < 2 ^ 63 ∨ place = .alone ∧ ty ≠ .double) := by
  obtain ⟨tokens, left, hscan, htrail⟩ := trail_of_readText (readText_of_parse h)
  refine ⟨tokens, left, hscan, htrail, ?_⟩
  intro ty value state after hrest hvalue
  refine ⟨?_, ?_⟩
  · rintro index rfl
    exact Value.literal_of_read hvalue
  intro place word span hliteral
  have hmem : .token (.integer word) span ∈ Lexeme.scan (Source.blankMetadata source.toList) := by
    rw [hscan]
    exact List.mem_map_of_mem (hrest.subset hliteral.mem)
  obtain ⟨piece, n, hstands, hdecimal, hlow, hhigh, rfl⟩ := Lexeme.decimal?_of_mem_scan hmem
  refine ⟨piece, n, hstands, hdecimal, hlow, hhigh, ?_⟩
  rw [Value.eq_of_literal hvalue hliteral]
  cases place with
  | alone => simpa using Value.means_ofLiteral_alone hlow hhigh
  | address => simpa using Value.means_ofLiteral_address hlow hhigh

/-- The greatest unsigned word as an integer, and the least number past the signed words as a
floating-point number. -/
def upperHalf : String :=
  "define void @main() \x7b\nentry:\n" ++
  "  call void @f(i64 18446744073709551615, double 9223372036854775808)\n  ret void\n\x7d\n"

def upperHalfModule : Module where
  name := ""
  source := none
  opaqueTypes := []
  globals := []
  functions := [
    { name := "main", ret := .void, params := [], attributes := []
      blocks := [⟨"entry", [
        .call none .void "f" [.int 64 (-1), .double ⟨0xC3E0000000000000⟩], .ret none]⟩] }]

def upperHalfTokens : List PlacedToken :=
  [⟨.keyword .define, ⟨0, 6⟩⟩, ⟨.keyword .void, ⟨7, 11⟩⟩, ⟨.globalName "main", ⟨12, 17⟩⟩,
    ⟨.mark .leftParen, ⟨17, 18⟩⟩, ⟨.mark .rightParen, ⟨18, 19⟩⟩, ⟨.mark .leftBrace, ⟨20, 21⟩⟩,
    ⟨.labelDef "entry", ⟨22, 28⟩⟩, ⟨.keyword .call, ⟨31, 35⟩⟩, ⟨.keyword .void, ⟨36, 40⟩⟩,
    ⟨.globalName "f", ⟨41, 43⟩⟩, ⟨.mark .leftParen, ⟨43, 44⟩⟩, ⟨.intType 64, ⟨44, 47⟩⟩,
    ⟨.integer (-1), ⟨48, 68⟩⟩, ⟨.mark .comma, ⟨68, 69⟩⟩, ⟨.keyword .double, ⟨70, 76⟩⟩,
    ⟨.integer (-9223372036854775808), ⟨77, 96⟩⟩, ⟨.mark .rightParen, ⟨96, 97⟩⟩,
    ⟨.keyword .ret, ⟨100, 103⟩⟩, ⟨.keyword .void, ⟨104, 108⟩⟩, ⟨.mark .rightBrace, ⟨109, 110⟩⟩]

set_option maxRecDepth 100000 in
/-- The integer means the number that its characters spell. -/
theorem literals_upperHalf : parse upperHalf = .ok upperHalfModule ∧ ∃ piece n,
    Lexeme.StandsAt (Source.blankMetadata upperHalf.toList) piece ⟨48, 68⟩ ∧
      Text.decimal? piece = some n ∧ (Value.int (-1)).Means .alone (.int 64) n := by
  have hparse : parse upperHalf = .ok upperHalfModule := eq_ok_of_toOption (by decide +kernel)
  have hupper : Lexeme.scan (Source.blankMetadata upperHalf.toList) =
      upperHalfTokens.map Lexeme.ofPlaced := by
    decide +kernel
  obtain ⟨tokens, left, hscan, -, hliterals⟩ := literals_of_parse hparse
  obtain rfl := List.map_injective_iff.mpr Lexeme.ofPlaced_injective (hupper.symm.trans hscan)
  obtain ⟨-, hread⟩ := hliterals (.int 64) (.int (-1)) ⟨upperHalfTokens.drop 12, 0⟩ _
    (List.drop_suffix 12 _) rfl
  obtain ⟨piece, n, hstands, hdecimal, -, -, hmeans⟩ := hread .alone (-1) ⟨48, 68⟩ .alone
  exact ⟨hparse, piece, n, hstands, hdecimal, hmeans.mpr (.inr ⟨rfl, Ty.noConfusion⟩)⟩

set_option maxRecDepth 100000 in
/-- The floating-point number is negative, which the number that its characters spell is not. -/
theorem not_means_upperHalf : parse upperHalf = .ok upperHalfModule ∧
    Lexeme.scan (Source.blankMetadata upperHalf.toList) = upperHalfTokens.map Lexeme.ofPlaced ∧
    ∃ state after, state.rest <:+ upperHalfTokens ∧
      Value.read .double state = .ok (.double ⟨0xC3E0000000000000⟩, after) ∧
      Literal state.rest .alone (-9223372036854775808) ⟨77, 96⟩ ∧
      Lexeme.StandsAt (Source.blankMetadata upperHalf.toList) "9223372036854775808".toList
        ⟨77, 96⟩ ∧
      Text.decimal? "9223372036854775808".toList = some (2 ^ 63) ∧
      ¬ (Value.double ⟨0xC3E0000000000000⟩).Means .alone .double (2 ^ 63) := by
  have hparse : parse upperHalf = .ok upperHalfModule := eq_ok_of_toOption (by decide +kernel)
  have hstands : Lexeme.StandsAt (Source.blankMetadata upperHalf.toList)
      "9223372036854775808".toList ⟨77, 96⟩ := by
    refine ⟨(Source.blankMetadata upperHalf.toList).take 77,
      (Source.blankMetadata upperHalf.toList).drop 96, ?_, ?_⟩
    · decide +kernel
    · decide +kernel
  refine ⟨hparse, by decide +kernel, ⟨upperHalfTokens.drop 15, 0⟩,
    ⟨upperHalfTokens.drop 16, 0⟩, List.drop_suffix 15 _, ?_, .alone, hstands, by decide +kernel, ?_⟩
  · exact eq_ok_of_toOption (by decide +kernel)
  · rintro ⟨-, hdouble⟩
    obtain ⟨x, hx, hsign⟩ := hdouble default rfl (by decide)
    cases hx
    exact absurd hsign (by decide)

end Module

end QuantumIR
