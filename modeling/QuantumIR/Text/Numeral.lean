import QuantumIR.Text.Name

/-!
Decimal numerals and the machine words that hold them.
-/

namespace QuantumIR.Text

/-- The number that a row of decimal digits spells; `none` for an empty row or another character. -/
def digits? : List Char → Option Nat
  | [] => none
  | text => if text.all isDigit then
      some (text.foldl (fun value c => 10 * value + (c.toNat - 48)) 0)
    else none

/-- Reads a count of at most 64 bits: digits after an optional plus sign. -/
def count? (text : List Char) : Option Nat := do
  let value ← digits? (match text with
    | '+' :: rest => rest
    | _ => text)
  if value < UInt64.size then some value else none

/-- Reads a 64-bit integer with an optional minus sign. A value past the largest
signed one is taken as the unsigned word of the same bits. -/
def word64? (text : List Char) : Option Int64 := do
  match text with
  | '-' :: rest =>
    let value ← digits? rest
    if 2 * value ≤ UInt64.size then some (Int64.ofInt (-(value : Int))) else none
  | _ =>
    let value ← digits? text
    if value < UInt64.size then some (Int64.ofNat value) else none

end QuantumIR.Text
