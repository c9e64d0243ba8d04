import QuantumIR.Double.Basic
import QuantumIR.Text.Numeral

/-!
Reading decimals. The double nearest to a decimal is found exactly, in natural
numbers; of two that are equally near it is the one with an even significand.
-/

namespace QuantumIR.Double

/-- The nearest integer to `num / den`, the even one if two are equally near. -/
def roundHalfEven (num den : Nat) : Nat :=
  let floor := num / den
  let rest := num % den
  if 2 * rest < den then floor
  else if den < 2 * rest then floor + 1
  else floor + floor % 2

/-- Positive infinity, and the bits at which numbers end. -/
def infinityBits : Nat := 2047 * Nat.pow 2 52

/-- The bits of the nearest double to `num / den` units. Up to 2 to the power of 53 units the
rounded count is its own bit pattern; each doubling after that takes one more step
of the exponent field. -/
def magnitudeBits (num den : Nat) : Nat :=
  let doublings := (num / den).log2 - 52
  min infinityBits (doublings * Nat.pow 2 52 + roundHalfEven num (den * Nat.pow 2 doublings))

/-- A double from the bits of its magnitude. -/
def ofMagnitude (negative : Bool) (magnitude : Nat) : Double :=
  ⟨UInt64.ofNat (if negative then Nat.pow 2 63 + magnitude else magnitude)⟩

/-- The nearest double to `digits` times ten to the power of `exponent`. A decimal whose leading
digit stands more than 400 places from the point is past all doubles on that side. -/
def ofDecimal (negative : Bool) (digits : Nat) (exponent : Int) : Double :=
  let places := (Nat.toDigits 10 digits).length + exponent
  ofMagnitude negative <|
    if digits = 0 ∨ places < -400 then 0
    else if 400 < places then infinityBits
    else if 0 ≤ exponent then magnitudeBits (digits * Nat.pow 10 exponent.toNat * unitsPerOne) 1
    else magnitudeBits (digits * unitsPerOne) (Nat.pow 10 (-exponent).toNat)

/-- The nearest double to an integer. -/
def ofInt (n : Int) : Double :=
  ofDecimal (n < 0) n.natAbs 0

/-- The value of an exponent with an optional sign. -/
def readExponent (text : List Char) : Int :=
  match text with
  | '-' :: rest => -((Text.digits? rest).getD 0 : Int)
  | '+' :: rest => (Text.digits? rest).getD 0
  | _ => (Text.digits? text).getD 0

/-- Reads digits, an optional point with more digits and an optional exponent. The
text is one that the token rules have let through. -/
def readUnsigned (negative : Bool) (text : List Char) : Double :=
  let whole := text.takeWhile Text.isDigit
  let afterWhole := text.dropWhile Text.isDigit
  let (fraction, afterFraction) := match afterWhole with
    | '.' :: rest => (rest.takeWhile Text.isDigit, rest.dropWhile Text.isDigit)
    | _ => ([], afterWhole)
  let exponent := match afterFraction with
    | [] => 0
    | _ :: rest => readExponent rest
  ofDecimal negative ((Text.digits? (whole ++ fraction)).getD 0) (exponent - fraction.length)

/-- Reads a decimal with an optional minus sign. -/
def readDecimal (text : List Char) : Double :=
  match text with
  | '-' :: rest => readUnsigned true rest
  | _ => readUnsigned false text

end QuantumIR.Double
