import QuantumIR.Text.Blank

/-!
Measurement outcomes as they are given on the command line: a row of bits such as
`1011`, or words and bits between commas such as `true,false,1`.
-/

namespace QuantumIR

/-- Why a text is not a list of outcomes. -/
inductive OutcomeError where
  | value (item : String)
  | bit (char : Char)
  deriving DecidableEq, Repr, Inhabited

def OutcomeError.message : OutcomeError → String
  | value item => "Invalid result value: '" ++ item ++ "'. Expected true, false, 1 or 0"
  | bit char =>
    "Invalid result bit: '" ++ String.ofList [char] ++ "'. Expected a string of 0s and 1s"

namespace Outcomes

/-- The pieces between commas, one more than there are commas. -/
def splitCommas : List Char → List (List Char)
  | [] => [[]]
  | c :: rest =>
    if c = ',' then [] :: splitCommas rest
    else match splitCommas rest with
      | [] => [[c]]
      | piece :: pieces => (c :: piece) :: pieces

/-- The outcome that a word stands for in any letter case. -/
def ofWord? (word : List Char) : Option Bool :=
  match String.ofList (word.map Char.toLower) with
  | "true" => some true
  | "false" => some false
  | _ => none

/-- One item of a list: a word or a bit, with blanks around it. -/
def readItem (item : List Char) : Except OutcomeError Bool :=
  let word := Text.trim item
  if word = ['1'] then .ok true
  else if word = ['0'] then .ok false
  else match ofWord? word with
    | some value => .ok value
    | none => .error (.value (String.ofList (word.map Char.toLower)))

def readBit (c : Char) : Except OutcomeError Bool :=
  if c = '1' then .ok true else if c = '0' then .ok false else .error (.bit c)

/-- The outcomes that a text gives. A comma makes it a list; a single word stands for itself. -/
def read (text : String) : Except OutcomeError (List Bool) :=
  let chars := Text.trim text.toList
  if ',' ∈ chars then (splitCommas chars).mapM readItem
  else match ofWord? chars with
    | some value => .ok [value]
    | none => chars.mapM readBit

end Outcomes

end QuantumIR
