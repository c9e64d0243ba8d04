/-!
The tokens of a YAML text. Collections that are given by indentation have tokens at
their start and end like those in brackets.
-/

namespace QuantumIR.Yaml

/-- A token. -/
inductive Token where
  | documentStart
  | documentEnd
  | blockSequenceStart
  | blockMappingStart
  | blockEnd
  | flowSequenceStart
  | flowSequenceEnd
  | flowMappingStart
  | flowMappingEnd
  /-- The dash before an item. -/
  | blockEntry
  /-- The comma between items. -/
  | flowEntry
  /-- What comes before a key. Mostly nothing in the text stands for it. -/
  | key
  /-- The colon before a value. -/
  | value
  | scalar (isPlain : Bool) (text : String)
  deriving DecidableEq, Repr, Inhabited

end QuantumIR.Yaml
