import QuantumIR.Text.Escape

/-!
Names of values, blocks, functions and types. A name that reads as one word is
written bare; any other is written between quotes.
-/

namespace QuantumIR.Text

/-- The ASCII letters. -/
def isLetter (c : Char) : Bool :=
  ('a' ≤ c && c ≤ 'z') || ('A' ≤ c && c ≤ 'Z')

/-- The ASCII decimal digits. -/
def isDigit (c : Char) : Bool :=
  '0' ≤ c && c ≤ '9'

/-- The marks that a bare name may hold beside letters and digits. -/
def isNameMark (c : Char) : Bool :=
  c = '$' || c = '.' || c = '_' || c = '-'

/-- The characters of a bare name. -/
def isNameChar (c : Char) : Bool :=
  isLetter c || isDigit c || isNameMark c

/-- A bare name is all digits, or name characters that do not start with a digit. -/
def isPlainName (name : String) : Bool :=
  match name.toList with
  | [] => false
  | c :: rest =>
    if isDigit c then rest.all isDigit
    else isNameChar c && rest.all isNameChar

/-- A name as it is written after `%` or `@` or before a colon. -/
def formatName (name : String) : String :=
  if isPlainName name then name else "\"" ++ escapeText name ++ "\""

end QuantumIR.Text
