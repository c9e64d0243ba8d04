import QuantumIR.Proofs.Accepted.Giving
import QuantumIR.Proofs.Reading.Instructions

/-!
Types and operands that are read can be written. Lengths of arrays are signed words, and a constant
stands at a type at which it is read.
-/

namespace QuantumIR

open Reading

variable {row : List PlacedToken}

namespace Ty

/-- Lengths that are read are not negative as signed words. -/
theorem toNat_toUInt64_lt {n : Int64} (h : ¬ n < 0) : n.toUInt64.toNat < 2 ^ 63 := by
  have hle : 0 ≤ n := Int64.not_lt.mp h
  have htop := n.toInt_lt
  rw [Int64.toNat_toUInt64_of_le hle, ← Int64.toNat_toInt]
  omega

theorem gives_readArrayOpenings :
    Gives row readArrayOpenings fun lengths => ∀ length ∈ lengths, length.toNat < 2 ^ 63 := by
  refine Gives.loop (fun lengths => ∀ length ∈ lengths, length.toNat < 2 ^ 63) ?_ (by simp)
  intro lengths hlengths
  apply (gives_takeIf _).skip
  intro found
  apply Gives.ite
  · intro _
    apply gives_integer.skip
    intro length
    apply Gives.ite
    · intro _
      exact (gives_unexpected .arrayLength).stop
    · intro hlength
      apply (gives_expect _).skip
      intro _
      apply Gives.pure
      intro n hn
      rcases List.mem_cons.mp hn with rfl | hn
      · exact toNat_toUInt64_lt hlength
      · exact hlengths n hn
  · intro _
    exact Gives.pure hlengths

/-- A base type that starts with `void` is read from that word, and an integer type from the token
of its width. -/
theorem gives_readBaseAt (token? : Option Token) : Gives row (readBaseAt token?) fun ty =>
    ty.Sized ∧ (ty.startsVoid → token? = some (.keyword .void)) ∧
      ∀ width, ty = .int width → token? = some (.intType width) := by
  rcases token? with _ | token
  · exact gives_unexpected .ty
  cases token with
  | keyword word =>
    cases word
    case ptr =>
      apply gives_advance.skip
      intro _
      apply (gives_isNext _).skip
      intro found
      apply Gives.ite
      · intro _
        exact gives_advance.skip fun _ => (gives_unsupported .addressSpace).stop
      · intro _
        exact Gives.pure ⟨trivial, Bool.noConfusion, fun _ => Ty.noConfusion⟩
    case void =>
      apply gives_advance.skip
      intro _
      exact Gives.pure ⟨trivial, fun _ => rfl, fun _ => Ty.noConfusion⟩
    case double =>
      apply gives_advance.skip
      intro _
      exact Gives.pure ⟨trivial, Bool.noConfusion, fun _ => Ty.noConfusion⟩
    all_goals exact gives_unexpected .ty
  | intType width =>
    apply gives_advance.skip
    intro _
    apply Gives.pure
    refine ⟨trivial, Bool.noConfusion, ?_⟩
    rintro _ ⟨⟩
    rfl
  | localName name =>
    apply gives_advance.skip
    intro _
    exact Gives.pure ⟨trivial, Bool.noConfusion, fun _ => Ty.noConfusion⟩
  | word word =>
    apply Gives.ite
    · intro _
      exact gives_unsupported _
    · intro _
      exact gives_unexpected .ty
  | _ => exact gives_unexpected .ty

theorem gives_readBase : Gives row readBase Sized := by
  apply gives_peek?.skip
  intro token?
  exact (gives_readBaseAt token?).weaken fun _ hty => hty.1

theorem gives_readStars {ty : Ty} (h : ty.Sized) : Gives row (readStars ty) Sized := by
  refine Gives.loop Sized ?_ h
  intro target htarget
  apply (gives_takeIf _).skip
  intro found
  apply Gives.ite
  · intro _
    exact Gives.pure htarget
  · intro _
    exact Gives.pure htarget

theorem gives_readArrayClosings {lengths : List UInt64}
    (hlengths : ∀ length ∈ lengths, length.toNat < 2 ^ 63) {ty : Ty} (h : ty.Sized) :
    Gives row (readArrayClosings lengths ty) Sized := by
  induction lengths generalizing ty with
  | nil => exact Gives.pure h
  | cons length lengths ih =>
    apply (gives_expect _).skip
    intro _
    have hsized : (array length ty).Sized := ⟨hlengths length List.mem_cons_self, h⟩
    apply (gives_readStars hsized).bind
    intro element helement
    exact ih (fun n hn => hlengths n (List.mem_cons_of_mem length hn)) helement

/-- Types that are read can be written. -/
theorem gives_read : Gives row Ty.read Sized := by
  apply gives_readArrayOpenings.bind
  intro lengths hlengths
  apply gives_readBase.bind
  intro base hbase
  apply (gives_readStars hbase).bind
  intro ty hty
  exact gives_readArrayClosings hlengths hty

end Ty

theorem gives_skipParamAttributes : Gives row skipParamAttributes fun _ => True := by
  refine Gives.loop (fun _ => True) ?_ trivial
  intro _ _
  apply gives_peek?.skip
  intro token?
  split
  · apply Gives.ite
    · intro _
      exact Gives.pure trivial
    · intro _
      apply gives_advance.skip
      intro _
      apply (gives_takeIf _).skip
      intro found
      apply Gives.ite
      · intro _
        exact gives_skipToParen.skip fun _ => Gives.pure trivial
      · intro _
        apply Gives.ite
        · intro _
          exact gives_skipInteger.skip fun _ => Gives.pure trivial
        · intro _
          exact Gives.pure trivial
  · exact Gives.pure trivial

namespace Value

theorem gives_readAddress {ty : Ty} (h : ty.Sized) :
    Gives row readAddress fun value => value.Writable ty := by
  apply (gives_expect _).skip
  intro _
  apply Ty.gives_read.bind
  intro source _
  apply Gives.ite
  · intro _
    exact (gives_unexpected .integerType).stop
  · intro _
    apply gives_integer.skip
    intro index
    apply (gives_expect _).skip
    intro _
    apply Ty.gives_read.bind
    intro target _
    exact (gives_expect _).skip fun _ => Gives.pure h

theorem gives_readZeroIndex (start : Place) : Gives row (readZeroIndex start) fun _ => True := by
  apply (gives_expect _).skip
  intro _
  apply Ty.gives_read.bind
  intro ty _
  apply Gives.ite
  · intro _
    exact (gives_unexpected .integerIndexType).stop
  · intro _
    apply gives_integer.skip
    intro index
    apply Gives.ite
    · intro _
      exact gives_unsupportedAt _ _
    · intro _
      exact Gives.pure trivial

theorem gives_readFirstByte (start : Place) : Gives row (readFirstByte start) fun value =>
    ∃ name length, value = .firstByte name length ∧ length.toNat < 2 ^ 63 := by
  apply (gives_takeIf _).skip
  intro _
  apply (gives_expect _).skip
  intro _
  apply Ty.gives_read.bind
  intro target htarget
  split
  · next length element =>
    apply (gives_expect _).skip
    intro _
    apply Ty.gives_read.bind
    intro pointer _
    apply Gives.ite
    · intro _
      exact (gives_unexpected .pointerType).stop
    · intro _
      apply gives_globalName.skip
      intro name
      apply (gives_readZeroIndex start).skip
      intro _
      apply (gives_readZeroIndex start).skip
      intro _
      exact (gives_expect _).skip fun _ => Gives.pure ⟨name, length, rfl, htarget.1⟩
  · exact gives_unsupportedAt _ _

/-- Values that are read at a type can be written there. -/
theorem gives_read {ty : Ty} (h : ty.Sized) :
    Gives row (Value.read ty) fun value => value.Writable ty := by
  apply gives_peek?.skip
  intro token?
  rcases token? with _ | token
  · exact gives_unexpected _
  cases token with
  | localName name => exact gives_advance.skip fun _ => Gives.pure trivial
  | globalName name => exact gives_advance.skip fun _ => Gives.pure trivial
  | integer n =>
    apply gives_advance.skip
    intro _
    apply Gives.pure
    split
    · next hdouble => exact hdouble
    · trivial
  | float x =>
    apply Gives.ite
    · intro hdouble
      exact gives_advance.skip fun _ => Gives.pure hdouble
    · intro _
      exact gives_unexpected _
  | keyword word =>
    cases word
    case trueWord => exact gives_advance.skip fun _ => Gives.pure trivial
    case falseWord => exact gives_advance.skip fun _ => Gives.pure trivial
    case null => exact gives_advance.skip fun _ => Gives.pure trivial
    case inttoptr => exact gives_advance.skip fun _ => gives_readAddress h
    case getelementptr =>
      apply gives_here.skip
      intro start
      apply gives_advance.skip
      intro _
      refine (gives_readFirstByte start).weaken ?_
      rintro _ ⟨name, length, rfl, hlength⟩
      exact hlength
    all_goals exact gives_unexpected _
  | word word =>
    apply Gives.ite
    · intro _
      exact gives_unsupported _
    · intro _
      exact gives_unexpected _
  | _ => exact gives_unexpected _

end Value

/-- Operands that are read can be written. -/
theorem Operand.gives_read : Gives row Operand.read Operand.Writable := by
  apply Ty.gives_read.bind
  intro ty hty
  apply gives_skipParamAttributes.skip
  intro _
  apply (Value.gives_read hty).bind
  intro value hvalue
  exact Gives.pure ⟨hty, hvalue⟩

end QuantumIR
