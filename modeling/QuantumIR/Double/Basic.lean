/-!
Double-precision numbers as their 64 bits. Nothing here computes with them: a
program only reads, compares, carries and prints its angles, so the bits and the
exact value they stand for are all that is needed.
-/

namespace QuantumIR

/-- A double-precision number: a sign bit, eleven exponent bits and 52 fraction bits. -/
structure Double where
  bits : UInt64
  deriving DecidableEq, Repr, Inhabited

namespace Double

/-- The sign bit. It is also set in negative zero and may be set in a number that is no value. -/
def negative (x : Double) : Bool :=
  UInt64.size ≤ 2 * x.bits.toNat

/-- The eleven exponent bits. -/
def exponentField (x : Double) : Nat :=
  x.bits.toNat / Nat.pow 2 52 % Nat.pow 2 11

/-- The 52 fraction bits. -/
def fraction (x : Double) : Nat :=
  x.bits.toNat % Nat.pow 2 52

/-- Every exponent field but the largest one belongs to a real number. -/
def isFinite (x : Double) : Bool :=
  x.exponentField ≠ 2047

/-- Bits that stand for no number. -/
def isNaN (x : Double) : Bool :=
  x.exponentField = 2047 && x.fraction ≠ 0

/-- Either zero. -/
def isZero (x : Double) : Bool :=
  x.exponentField = 0 && x.fraction = 0

/-- The significand: the fraction bits under a leading one, which subnormal numbers lack. -/
def significand (x : Double) : Nat :=
  if x.exponentField = 0 then x.fraction else Nat.pow 2 52 + x.fraction

/-- The distance of `x` to the next larger double, in units of the least positive one: a power of
two. -/
def spacing (x : Double) : Nat :=
  Nat.pow 2 (x.exponentField - 1)

/-- The absolute value of a finite number, counted in units of the least positive double. -/
def units (x : Double) : Nat :=
  x.significand * x.spacing

/-- How many units make one: the least positive double is two to the power of minus 1074. -/
def unitsPerOne : Nat := Nat.pow 2 1074

/-- Positive zero for either zero, any other number unchanged. Two numbers that are
values are equal as numbers if and only if these are equal as bits. -/
def unsignedZero (x : Double) : Double :=
  if x.isZero then ⟨0⟩ else x

end Double

end QuantumIR
