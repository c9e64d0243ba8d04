import QuantumIR.Double.Basic

/-!
The shortest decimal that reads back as a given double. The decimals that round
to a double form an interval around it. For one digit, two digits and so on, only
the two neighbours of the value on that decimal grid can be the nearest ones in
the interval, so these two are tried. Everything is compared in natural numbers,
with all quantities scaled by the same large factor.
-/

namespace QuantumIR.Double

/-- `digits` times ten to the power of `exponent`. -/
structure Decimal where
  digits : Nat
  exponent : Int
  deriving DecidableEq, Repr, Inhabited

/-- Which of two equally near shortest decimals is taken: the one of larger
magnitude, or the one with an even last digit. -/
inductive Tie where
  | away
  | even
  deriving DecidableEq, Repr

/-- The power of ten by which quantities are scaled, so that no grid is finer than one. -/
def decimalScale : Nat := 400

/-- The exponent of the leading decimal digit of a finite number that is not zero. -/
def leadingExponent (x : Double) : Int :=
  (Nat.toDigits 10 (x.units * Nat.pow 10 decimalScale / unitsPerOne)).length - 1 - decimalScale

/-- A quarter of the scaled distance to the next smaller double. The distance is
half of that to the next larger one where the significand is a power of two. -/
def quarterBelow (x : Double) : Nat :=
  if x.fraction = 0 ∧ 1 < x.exponentField then x.spacing else 2 * x.spacing

/-- Whether a point, given in quarters of units times ten to the power of the scale, rounds to
`x`. The ends of the interval do so exactly if the significand is even. -/
def isReadAs (x : Double) (point : Nat) : Bool :=
  let value := 4 * x.units
  let low := (value - x.quarterBelow) * Nat.pow 10 decimalScale
  let high := (value + 2 * x.spacing) * Nat.pow 10 decimalScale
  if x.significand % 2 = 0 then low ≤ point && point ≤ high
  else low < point && point < high

/-- The nearest decimal of `count` digits that reads back as `x`, if there is one. -/
def nearest? (x : Double) (tie : Tie) (count : Nat) : Option Decimal :=
  let exponent := x.leadingExponent + 1 - count
  let step := 4 * Nat.pow 10 (exponent + decimalScale).toNat * unitsPerOne
  let value := 4 * x.units * Nat.pow 10 decimalScale
  let below := value / step
  let above := below + 1
  let toBelow := value - below * step
  let toAbove := above * step - value
  let upward : Bool := match tie with
    | .away => toAbove ≤ toBelow
    | .even => toAbove < toBelow || (toAbove = toBelow && above % 2 = 0)
  match x.isReadAs (below * step), x.isReadAs (above * step) with
  | true, true => some ⟨if upward then above else below, exponent⟩
  | true, false => some ⟨below, exponent⟩
  | false, true => some ⟨above, exponent⟩
  | false, false => none

/-- The decimal without zeros at the end of its digits. -/
def Decimal.trimZeros (d : Decimal) : Decimal :=
  if 0 < d.digits ∧ d.digits % 10 = 0 then
    Decimal.trimZeros ⟨d.digits / 10, d.exponent + 1⟩
  else d
termination_by d.digits
decreasing_by omega

/-- The decimal of fewest digits that reads back as the magnitude of a finite number. Seventeen
digits always do. -/
def shortest (x : Double) (tie : Tie) : Decimal :=
  if x.isZero then ⟨0, 0⟩
  else (((List.range 17).findSome? fun i => x.nearest? tie (i + 1)).getD ⟨0, 0⟩).trimZeros

end QuantumIR.Double
