import QuantumIR.Double.Notation

/-!
JSON documents and their indented text. Objects keep the order of their fields.
-/

namespace QuantumIR

/-- A JSON document. Numbers are integers or doubles. -/
inductive JsonValue where
  | null
  | bool (value : Bool)
  | int (value : Int)
  | double (value : Double)
  | string (text : String)
  | array (items : List JsonValue)
  | object (fields : List (String × JsonValue))
  deriving Repr, Inhabited

namespace JsonValue

/-- A natural number. -/
def nat (value : Nat) : JsonValue := .int value

/-- Either a document or `null`. -/
def optional (f : α → JsonValue) (value : Option α) : JsonValue :=
  (value.map f).getD .null

/-- The letters of the control characters that have a short escape. -/
def shortEscapes : List (Char × Char) :=
  [('"', '"'), ('\\', '\\'), ('\x08', 'b'), ('\x0c', 'f'), ('\n', 'n'), ('\r', 'r'), ('\t', 't')]

/-- A hexadecimal digit in lower case. -/
def lowerHexDigit (n : Nat) : Char :=
  (Text.hexDigit n).toLower

/-- A character between quotes. -/
def escapeChar (c : Char) : List Char :=
  match shortEscapes.lookup c with
  | some letter => ['\\', letter]
  | none =>
    if c.toNat < 32 then
      ['\\', 'u', '0', '0', lowerHexDigit (c.toNat / 16), lowerHexDigit (c.toNat % 16)]
    else [c]

/-- A text between quotes. -/
def quote (text : String) : String :=
  "\"" ++ String.ofList (text.toList.flatMap escapeChar) ++ "\""

/-- A line break and the indentation after it. -/
def lineBreak (depth : Nat) : String :=
  "\n" ++ String.ofList (List.replicate (2 * depth) ' ')

/-- Pieces between brackets, each on a line of its own. -/
def enclose (opening closing : String) (depth : Nat) (pieces : List String) : String :=
  if pieces.isEmpty then opening ++ closing
  else
    opening ++ ",".intercalate (pieces.map fun piece => lineBreak (depth + 1) ++ piece) ++
      lineBreak depth ++ closing

mutual

/-- The text of a document that stands `depth` levels deep. -/
def textAt (depth : Nat) : JsonValue → String
  | null => "null"
  | bool value => if value then "true" else "false"
  | int value => toString value
  | double value => DoubleNotation.json.format value
  | string text => quote text
  | array items => enclose "[" "]" depth (itemTexts (depth + 1) items)
  | object fields => enclose "\x7b" "\x7d" depth (fieldTexts (depth + 1) fields)

def itemTexts (depth : Nat) : List JsonValue → List String
  | [] => []
  | item :: items => textAt depth item :: itemTexts depth items

def fieldTexts (depth : Nat) : List (String × JsonValue) → List String
  | [] => []
  | (key, value) :: fields => (quote key ++ ": " ++ textAt depth value) :: fieldTexts depth fields

end

/-- The indented text of a document. -/
def text (document : JsonValue) : String :=
  textAt 0 document

end JsonValue

end QuantumIR
