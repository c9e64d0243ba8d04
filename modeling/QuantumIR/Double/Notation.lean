import QuantumIR.Double.Shortest
import QuantumIR.Text.Escape

/-!
How doubles are written. All notations write the shortest digits that read back;
a `DoubleNotation` holds what they differ in.
-/

namespace QuantumIR

/-- The decisions of one way to write doubles. -/
structure DoubleNotation where
  /-- Which of two equally near shortest decimals is written. -/
  tie : Double.Tie
  /-- Whether a number is written without an exponent, given that of its leading digit. -/
  positional : Int → Bool
  /-- What follows an integer that is written without an exponent. -/
  wholeEnd : String
  /-- What follows a single digit before an exponent. -/
  digitEnd : String
  /-- The sign before an exponent that is not negative. -/
  exponentPlus : String
  /-- The text of infinities and of bits that stand for no number. -/
  nonFinite : Double → String

namespace DoubleNotation

/-- A row of digits with the decimal point after the first `whole` of them, filled
up with zeros on either side. -/
def positionalText (form : DoubleNotation) (digits : List Char) (whole : Int) : String :=
  if whole ≤ 0 then
    "0." ++ String.ofList (List.replicate (-whole).toNat '0' ++ digits)
  else
    let count := whole.toNat
    if digits.length ≤ count then
      String.ofList (digits ++ List.replicate (count - digits.length) '0') ++ form.wholeEnd
    else
      String.ofList (digits.take count) ++ "." ++ String.ofList (digits.drop count)

/-- A row of digits with the point after the first and an exponent. -/
def scientificText (form : DoubleNotation) (digits : List Char) (exponent : Int) : String :=
  let significand := match digits with
    | [] => form.digitEnd
    | [d] => String.ofList [d] ++ form.digitEnd
    | d :: rest => String.ofList (d :: '.' :: rest)
  significand ++ "e" ++ (if exponent < 0 then "" else form.exponentPlus) ++ toString exponent

/-- A double in this notation. -/
def format (form : DoubleNotation) (x : Double) : String :=
  if x.isFinite then
    let decimal := x.shortest form.tie
    let digits := Nat.toDigits 10 decimal.digits
    let exponent := decimal.exponent + digits.length - 1
    (if x.negative then "-" else "") ++
      if form.positional exponent then form.positionalText digits (exponent + 1)
      else form.scientificText digits exponent
  else form.nonFinite x

/-- The usual words for what is not finite. A sign is written for infinities only. -/
def nonFiniteWord (x : Double) : String :=
  if x.isNaN then "NaN" else if x.negative then "-inf" else "inf"

/-- A number of 64 bits as sixteen hexadecimal digits. -/
def hex64 (n : Nat) : String :=
  String.ofList ((List.range 16).map fun i => Text.hexDigit (n / Nat.pow 16 (15 - i) % 16))

/-- Constants in a program: always with a point and an exponent, and by their bits
where there is no decimal. -/
def constant : DoubleNotation where
  tie := .away
  positional _ := false
  wholeEnd := ""
  digitEnd := ".0"
  exponentPlus := ""
  nonFinite x := "0x" ++ hex64 x.bits.toNat

/-- Angles in the gate log: with an exponent below 0.0001 and from 1e16 on. -/
def log : DoubleNotation where
  tie := .away
  positional e := -5 < e && e < 16
  wholeEnd := ".0"
  digitEnd := ""
  exponentPlus := ""
  nonFinite := nonFiniteWord

/-- Recorded output and token texts: never with an exponent. -/
def plain : DoubleNotation where
  tie := .away
  positional _ := true
  wholeEnd := ""
  digitEnd := ""
  exponentPlus := ""
  nonFinite := nonFiniteWord

/-- Numbers in JSON: with an exponent below 0.00001 and from 1e16 on, and `null` where
JSON has no number. -/
def json : DoubleNotation where
  tie := .even
  positional e := -6 < e && e < 16
  wholeEnd := ".0"
  digitEnd := ""
  exponentPlus := "+"
  nonFinite _ := "null"

end DoubleNotation

end QuantumIR
