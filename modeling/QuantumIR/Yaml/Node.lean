/-!
YAML documents, as far as settings need them: scalars, mappings and sequences.
-/

namespace QuantumIR

/-- A YAML document. -/
inductive YamlNode where
  /-- A scalar without quotes. It may stand for a number or for nothing. -/
  | plain (text : String)
  /-- A scalar that is always a text. -/
  | quoted (text : String)
  | mapping (entries : List (YamlNode × YamlNode))
  | sequence (items : List YamlNode)
  deriving Repr, Inhabited

namespace YamlNode

/-- A place where nothing is written. -/
def nothing : YamlNode := .plain ""

/-- The text of a scalar. -/
def scalar? : YamlNode → Option String
  | plain text | quoted text => some text
  | _ => none

/-- Whether a scalar stands for no value. -/
def isNull : YamlNode → Bool
  | plain text => text ∈ ["", "~", "null", "Null", "NULL"]
  | _ => false

/-- The entries of a mapping whose keys are scalars. A place where nothing is written is an
empty one. -/
def entries? : YamlNode → Option (List (String × YamlNode))
  | mapping entries => entries.mapM fun (key, value) => key.scalar?.map (·, value)
  | plain "" => some []
  | _ => none

end YamlNode

end QuantumIR
