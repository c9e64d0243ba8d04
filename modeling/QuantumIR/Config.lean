import QuantumIR.Eval.Machine
import QuantumIR.Loading
import QuantumIR.Yaml.Document

/-!
Settings of the command line: read from a YAML document, overridden by environment
variables, and checked. A setting that is given nowhere has a default.
-/

namespace QuantumIR

/-- Settings. -/
structure Config where
  limits : Limits
  /-- The function to run in place of the marked entry point. -/
  entryPoint : Option String
  /-- The least severity of the messages that are logged. -/
  logLevel : String
  deriving DecidableEq, Repr, Inhabited

/-- Why settings cannot be used. -/
inductive ConfigError where
  | file (path : String) (error : FileError)
  | malformed
  | logLevel (level : String)
  | zeroSteps
  | zeroDepth
  | emptyEntryPoint
  | environment (name value : String)
  deriving DecidableEq, Repr, Inhabited

namespace ConfigError

/-- Whether settings were read but are of no use. -/
def isInvalid : ConfigError → Bool
  | file .. | malformed => false
  | _ => true

def message : ConfigError → String
  | file path error => "IO error: " ++ path ++ ": " ++ error.message
  | malformed => "Parse error: the document does not give settings"
  | logLevel level => "Validation error: Invalid log level: " ++ level
  | zeroSteps => "Validation error: max_steps must be greater than 0"
  | zeroDepth => "Validation error: max_call_depth must be greater than 0"
  | emptyEntryPoint => "Validation error: entry_point must not be empty"
  | environment name value =>
    "Validation error: " ++ name ++ ": invalid value " ++ quoteName value

end ConfigError

namespace Config

/-- The settings if none are given. -/
def standard : Config := ⟨.standard, none, "warn"⟩

/-- The prefixes of numbers that are not decimal, with their bases. -/
def radixPrefixes : List (List Char × Nat) :=
  [(['0', 'x'], 16), (['0', 'o'], 8), (['0', 'b'], 2)]

/-- A row of digits in a base. -/
def digitsIn? (base : Nat) (text : List Char) : Option Nat := do
  if text.isEmpty then none
  let values ← text.mapM Text.hexValue?
  if values.all fun digit => digit < base then
    some (values.foldl (fun value digit => base * value + digit) 0)
  else none

/-- A number in a document: decimal without leading zeros, or with a prefix for its base. -/
def unsigned? (text : List Char) : Option Nat :=
  match radixPrefixes.find? fun entry => entry.1.isPrefixOf text with
  | some (mark, base) => digitsIn? base (text.drop mark.length)
  | none => if text.head? = some '0' ∧ 1 < text.length then none else Text.digits? text

/-- The integer that a scalar without quotes spells, if it spells one. -/
def integer? (text : List Char) : Option Int :=
  match text with
  | '+' :: rest => (unsigned? rest).map Int.ofNat
  | '-' :: rest => (unsigned? rest).map fun value => -(value : Int)
  | _ => (unsigned? text).map Int.ofNat

/-- Whether an integer is a word of 64 bits, signed or not. -/
def isWord (value : Int) : Bool :=
  -(UInt64.size : Int) ≤ 2 * value && value < UInt64.size

/-- Whether an integer is a word of 128 bits, signed or not. -/
def isDoubleWord (value : Int) : Bool :=
  -((UInt64.size * UInt64.size : Nat) : Int) ≤ 2 * value && value < UInt64.size * UInt64.size

/-- A count in a document. -/
def count? : YamlNode → Option Nat
  | .plain text => do
    let value ← integer? text.toList
    if 0 ≤ value && isWord value then some value.toNat else none
  | _ => none

/-- Whether a setting that nobody knows can be passed over. An integer must not need more
than 64 bits unless it is too large for 128 as well, and then it is no integer. Collections
stand inside each other only so many times. -/
def isIgnorable : Nat → YamlNode → Bool
  | _, .plain text => (integer? text.toList).all fun value => isWord value || !isDoubleWord value
  | _, .quoted _ => true
  | 0, _ => false
  | depth + 1, .sequence items => items.all (isIgnorable depth)
  | depth + 1, .mapping entries =>
    entries.all fun (key, value) => isIgnorable depth key && isIgnorable depth value

/-- How many collections may stand inside each other in a setting of the evaluation: 128, of
which two are around it. -/
def depthLimit : Nat := 126

/-- A value that may also be left open. -/
def optional? (read : YamlNode → Option α) (node : YamlNode) : Option (Option α) :=
  if node.isNull then some none else (read node).map some

/-- Reads the value of a key if the mapping has it. A key must not be given twice. -/
def field? (entries : List (String × YamlNode)) (key : String) (default : α)
    (read : YamlNode → Option α) : Option α :=
  match entries.filter fun entry => entry.1 = key with
  | [] => some default
  | [(_, node)] => read node
  | _ => none

/-- The evaluation's part of the settings. Every value in it but the entry point has to be one
that can be passed over, whether or not it is. -/
def evalPart? (config : Config) (node : YamlNode) : Option Config := do
  let entries ← node.entries?
  let others := entries.filter fun (key, _) => key ≠ "entry_point"
  if !others.all fun (_, value) => isIgnorable depthLimit value then none
  let steps ← field? entries "max_steps" config.limits.steps (optional? count?)
  let depth ← field? entries "max_call_depth" config.limits.depth count?
  let entryPoint ← field? entries "entry_point" config.entryPoint (optional? YamlNode.scalar?)
  return { config with limits := ⟨steps, depth⟩, entryPoint }

/-- The logging's part of the settings. -/
def loggingPart? (config : Config) (node : YamlNode) : Option Config := do
  let entries ← node.entries?
  let logLevel ← field? entries "level" config.logLevel YamlNode.scalar?
  return { config with logLevel }

/-- The settings that a document gives. Other keys are passed over. -/
def ofNode? (node : YamlNode) : Option Config := do
  let entries ← node.entries?
  let config ← field? entries "eval" standard (evalPart? standard)
  field? entries "logging" config (loggingPart? config)

/-- The severities that messages can have. -/
def logLevels : List String := ["trace", "debug", "info", "warn", "error"]

/-- Checks settings. -/
def validate (config : Config) : Except ConfigError Unit := do
  if config.logLevel ∉ logLevels then throw (.logLevel config.logLevel)
  if config.limits.steps = some 0 then throw .zeroSteps
  if config.limits.depth = 0 then throw .zeroDepth
  if config.entryPoint = some "" then throw .emptyEntryPoint

/-- The settings of a document, checked. -/
def ofYaml (source : String) : Except ConfigError Config := do
  match (YamlNode.parse? source).bind ofNode? with
  | some config =>
    config.validate
    return config
  | none => throw .malformed

/-- The names of the environment variables. -/
def variableNames : List String :=
  ["QIRK_MAX_STEPS", "QIRK_MAX_CALL_DEPTH", "QIRK_ENTRY_POINT", "QIRK_LOG_LEVEL"]

/-- The count that a variable gives, with blanks around it. -/
def variableCount (name value : String) : Except ConfigError Nat :=
  match Text.count? (Text.trim value.toList) with
  | some count => .ok count
  | none => .error (.environment name value)

/-- Overrides settings by the variables that are set. -/
def withEnvironment (config : Config) (lookup : String → Option String) :
    Except ConfigError Config := do
  let steps ← (lookup "QIRK_MAX_STEPS").mapM (variableCount "QIRK_MAX_STEPS")
  let depth ← (lookup "QIRK_MAX_CALL_DEPTH").mapM (variableCount "QIRK_MAX_CALL_DEPTH")
  return {
    limits := ⟨steps <|> config.limits.steps, depth.getD config.limits.depth⟩
    entryPoint := lookup "QIRK_ENTRY_POINT" <|> config.entryPoint
    logLevel := (lookup "QIRK_LOG_LEVEL").getD config.logLevel }

/-- The settings of a document, if there is one, under those of the environment. -/
def load (source : Option String) (lookup : String → Option String) :
    Except ConfigError Config := do
  let given ← match source with
    | some text => ofYaml text
    | none => .ok standard
  let config ← given.withEnvironment lookup
  config.validate
  return config

end Config

end QuantumIR
