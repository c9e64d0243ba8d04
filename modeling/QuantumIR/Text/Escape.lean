import QuantumIR.Text.Utf8

/-!
Bytes inside double quotes. Writing keeps printable ASCII and spells every other
byte, the quote and the backslash as a backslash and two upper-case hexadecimal
digits. Reading also takes a doubled backslash.
-/

namespace QuantumIR.Text

/-- The upper-case hexadecimal digit of a number below sixteen. -/
def hexDigit (n : Nat) : Char :=
  if n < 10 then Char.ofNat (48 + n) else Char.ofNat (55 + n)

/-- The value of a hexadecimal digit in either case. -/
def hexValue? (c : Char) : Option Nat :=
  if '0' ≤ c ∧ c ≤ '9' then some (c.toNat - 48)
  else if 'A' ≤ c ∧ c ≤ 'F' then some (c.toNat - 55)
  else if 'a' ≤ c ∧ c ≤ 'f' then some (c.toNat - 87)
  else none

/-- One byte between quotes. -/
def escapeByte (byte : UInt8) : List Char :=
  if byte = 0x22 ∨ byte = 0x5C ∨ byte < 0x20 ∨ 0x7F ≤ byte then
    ['\\', hexDigit (byte.toNat / 16), hexDigit (byte.toNat % 16)]
  else [Char.ofNat byte.toNat]

/-- Bytes between quotes. -/
def escape (bytes : List UInt8) : String :=
  String.ofList (bytes.flatMap escapeByte)

/-- A text between quotes. -/
def escapeText (text : String) : String :=
  escape (utf8 text.toList)

/-- The byte of the two characters after a backslash: two hexadecimal digits,
or a plus sign and one. -/
def hexPair? (high low : Char) : Option UInt8 :=
  if high = '+' then (hexValue? low).map UInt8.ofNat
  else do
    let h ← hexValue? high
    let l ← hexValue? low
    return UInt8.ofNat (16 * h + l)

/-- The bytes that a text between quotes stands for, or `none` at a backslash
that starts no escape. -/
def unescape? : List Char → Option (List UInt8)
  | [] => some []
  | '\\' :: '\\' :: rest => (unescape? rest).map (0x5C :: ·)
  | '\\' :: high :: low :: rest => do
    let byte ← hexPair? high low
    let bytes ← unescape? rest
    return byte :: bytes
  | c :: rest =>
    if c = '\\' then none
    else (unescape? rest).map (String.utf8EncodeChar c ++ ·)

/-- The text between quotes, with bytes that spell no character replaced. -/
def unquoted? (inner : List Char) : Option String :=
  (unescape? inner).map fun bytes => String.ofList (decodeLossy bytes)

end QuantumIR.Text
