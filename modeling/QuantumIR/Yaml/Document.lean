import QuantumIR.Yaml.Node
import QuantumIR.Yaml.Token.Lexer

/-!
The document that a YAML text holds, put together from its tokens.
-/

namespace QuantumIR.Yaml

/-- What is read from the front of some tokens, and the tokens after it. -/
abbrev TokenReader (α : Type) := List Token → Option (α × List Token)

/-- A node, or nothing if one of some tokens comes first. -/
def orNothing (stops : List Token) (read : TokenReader YamlNode) : TokenReader YamlNode :=
  fun tokens =>
    if tokens.head?.any (· ∈ stops) then some (.nothing, tokens) else read tokens

/-- A value after its colon, which may be left out, and nothing if there is no colon. -/
def valueOrNothing (stops : List Token) (read : TokenReader YamlNode) : TokenReader YamlNode
  | .value :: rest => orNothing stops read rest
  | tokens => some (.nothing, tokens)

mutual

/-- A node. Block collections stand only outside brackets, and a sequence that is not
indented only in a mapping. -/
def node? : Nat → Bool → Bool → TokenReader YamlNode
  | 0, _, _, _ | _, _, _, [] => none
  | fuel + 1, block, unindented, token :: rest =>
    match token with
    | .scalar isPlain text => some (if isPlain then .plain text else .quoted text, rest)
    | .flowSequenceStart => flowItems? fuel [] rest
    | .flowMappingStart => flowEntries? fuel [] rest
    | .blockSequenceStart => if block then blockItems? fuel [] rest else none
    | .blockMappingStart => if block then blockEntries? fuel [] rest else none
    | .blockEntry => if unindented then unindentedItems? fuel [] (token :: rest) else none
    | _ => none

/-- The items of a block sequence after those in `items`. -/
def blockItems? : Nat → List YamlNode → TokenReader YamlNode
  | fuel + 1, items, .blockEntry :: rest => do
    let (item, rest) ← orNothing [.blockEntry, .blockEnd] (node? fuel true false) rest
    blockItems? fuel (items ++ [item]) rest
  | _ + 1, items, .blockEnd :: rest => some (.sequence items, rest)
  | _, _, _ => none

/-- The items of a sequence that is not indented, after those in `items`. -/
def unindentedItems? : Nat → List YamlNode → TokenReader YamlNode
  | 0, _, _ => none
  | fuel + 1, items, .blockEntry :: rest => do
    let (item, rest) ←
      orNothing [.blockEntry, .key, .value, .blockEnd] (node? fuel true false) rest
    unindentedItems? fuel (items ++ [item]) rest
  | _ + 1, items, tokens => some (.sequence items, tokens)

/-- The entries of a block mapping after those in `entries`. -/
def blockEntries? : Nat → List (YamlNode × YamlNode) → TokenReader YamlNode
  | fuel + 1, entries, .key :: rest => do
    let part := orNothing [.key, .value, .blockEnd] (node? fuel true true)
    let (key, rest) ← part rest
    let (value, rest) ← valueOrNothing [.key, .value, .blockEnd] (node? fuel true true) rest
    blockEntries? fuel (entries ++ [(key, value)]) rest
  | _ + 1, entries, .blockEnd :: rest => some (.mapping entries, rest)
  | _, _, _ => none

/-- The items up to a closing bracket after those in `items`. An item with a colon is a
mapping of one entry. -/
def flowItems? : Nat → List YamlNode → TokenReader YamlNode
  | 0, _, _ => none
  | _ + 1, items, .flowSequenceEnd :: rest => some (.sequence items, rest)
  | fuel + 1, items, tokens => do
    let (item, rest) ← match tokens with
      | .key :: rest => do
        let (key, rest) ← node? fuel false false rest
        let (value, rest) ←
          valueOrNothing [.flowEntry, .flowSequenceEnd] (node? fuel false false) rest
        some (.mapping [(key, value)], rest)
      | tokens => node? fuel false false tokens
    match rest with
    | .flowEntry :: rest => flowItems? fuel (items ++ [item]) rest
    | .flowSequenceEnd :: rest => some (.sequence (items ++ [item]), rest)
    | _ => none

/-- The entries up to a closing brace after those in `entries`. An entry without a colon is
a key without a value. -/
def flowEntries? : Nat → List (YamlNode × YamlNode) → TokenReader YamlNode
  | 0, _, _ => none
  | _ + 1, entries, .flowMappingEnd :: rest => some (.mapping entries, rest)
  | fuel + 1, entries, tokens => do
    let (entry, rest) ← match tokens with
      | .key :: rest => do
        let (key, rest) ←
          orNothing [.value, .flowEntry, .flowMappingEnd] (node? fuel false false) rest
        let (value, rest) ←
          valueOrNothing [.flowEntry, .flowMappingEnd] (node? fuel false false) rest
        some ((key, value), rest)
      | tokens => do
        let (key, rest) ← node? fuel false false tokens
        some ((key, YamlNode.nothing), rest)
    match rest with
    | .flowEntry :: rest => flowEntries? fuel (entries ++ [entry]) rest
    | .flowMappingEnd :: rest => some (.mapping (entries ++ [entry]), rest)
    | _ => none

end

/-- The node of a document. Only after the line that starts a document it may be left out. -/
def root? (tokens : List Token) : Option (YamlNode × List Token) :=
  let node := node? (2 * tokens.length + 2) true false
  match tokens with
  | [] => some (.nothing, [])
  | .documentStart :: [] => some (.nothing, [])
  | .documentStart :: rest => orNothing [.documentStart, .documentEnd] node rest
  | tokens => node tokens

/-- The characters that may stand in a text. -/
def isPrintable (c : Char) : Bool :=
  c ∈ ['\t', '\n', '\r', '\u0085'] || (0x20 ≤ c.toNat && c.toNat ≤ 0x7E) ||
    (0xA0 ≤ c.toNat && c.toNat ≤ 0xFFFD) || 0x10000 ≤ c.toNat

end QuantumIR.Yaml

namespace QuantumIR

/-- The one document that a text holds. An empty text is a document in which nothing is written. -/
def YamlNode.parse? (source : String) : Option YamlNode := do
  let text := source.toList
  if !text.all Yaml.isPrintable then none
  let (node, rest) ← Yaml.root? (← Yaml.tokens? (Yaml.unifyBreaks text))
  if rest.all (· = .documentEnd) then some node else none

end QuantumIR
