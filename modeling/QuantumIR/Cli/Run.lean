import QuantumIR.Cli.Command
import QuantumIR.Cli.Host
import QuantumIR.Config
import QuantumIR.Evaluation
import QuantumIR.GateLog
import QuantumIR.Outcomes

/-!
Running a command. Files are reached through a `Host`, so that a command does the same
in any monad that has files.
-/

namespace QuantumIR.Cli

/-- What a command leaves behind: its exit code, what it writes on standard output, and its
message if it fails. -/
structure Response where
  exitCode : UInt32
  output : String
  error : Option String
  deriving DecidableEq, Repr, Inhabited

/-- Why a command fails. -/
inductive Failure where
  | config (error : ConfigError)
  | missing (path : String)
  | unreadable (path : String) (error : FileError)
  | unwritable (path : String) (error : FileError)
  | load (path : String) (error : LoadError)
  | parse (path : String) (error : ParseError)
  | outcomes (error : OutcomeError)
  | evaluation (path : String) (error : EvalError)
  | demo (error : DemoError)
  deriving DecidableEq, Repr, Inhabited

/-- The message of a failure. After a colon comes what it goes back to. -/
def Failure.message : Failure → String
  | config error => error.message
  | missing path => "File not found: " ++ path
  | unreadable path error => "Failed to read file: " ++ path ++ ": " ++ error.message
  | unwritable path error => "Failed to write file: " ++ path ++ ": " ++ error.message
  | load path error => "Failed to load " ++ path ++ ": " ++ error.message ++ ": " ++ error.cause
  | parse path error => "Failed to parse " ++ path ++ ": " ++ error.message
  | outcomes error => error.message
  | evaluation path error => "Evaluation of " ++ path ++ " failed: " ++ error.message
  | demo error => error.message

/-- The name and the version of the program. -/
def programName : String := "qirk"

def programVersion : String := "0.4.0"

/-- What the version command writes. -/
def versionText : String :=
  programName ++ " v" ++ programVersion ++ " - QIR builder, loader and non-adaptive evaluator\n" ++
    "\n" ++
    "Components:\n" ++
    "  qirk-ir    Module model, builder and emitter\n" ++
    "  qirk-llvm  LLVM IR loader and verifier\n" ++
    "  qirk-eval  Non-adaptive evaluator\n" ++
    "  qirk-cli   Command-line interface\n" ++
    "\n" ++
    "Repository: https://github.com/qirk-dev/qirk\n" ++
    "License:    Apache-2.0\n"

/-- What a record holds, as a word for its kind and a text. -/
def recordColumns : OutputValue → List String
  | .result value => ["RESULT", if value then "1" else "0"]
  | .bool value => ["BOOL", if value then "true" else "false"]
  | .int value => ["INT", toString value]
  | .double value => ["DOUBLE", DoubleNotation.plain.format value]
  | .array length => ["ARRAY", toString length]
  | .tuple length => ["TUPLE", toString length]

/-- A record as a line of columns between tabs. -/
def recordLine (record : OutputRecord) : String :=
  "\t".intercalate ("OUTPUT" :: recordColumns record.value ++ record.label.toList) ++ "\n"

/-- The gate log and what the program has recorded. -/
def textReport (log : GateLog) (metadata : RunMetadata) : String :=
  log.text ++ String.join (metadata.output.map recordLine)

/-- The lines of the gate log, the operations and what is known of the run. -/
def jsonReport (log : GateLog) (metadata : RunMetadata) : String :=
  JsonValue.text (.object
    [("instructions", .array (log.lines.map .string)),
     ("trace", .array (log.operations.toList.map Operation.json)),
     ("metadata", metadata.json)]) ++ "\n"

/-- Functions by name, each on a line. -/
def nameLines (functions : List Function) : String :=
  String.join (functions.map fun function => "    " ++ function.name ++ "\n")

/-- What is known of a verified module. -/
def verifyReport (path : String) (module : Module) : String :=
  let entry := module.entryPoint?
  let (known, external) :=
    module.declarations.partition fun function => (Intrinsic.ofName? function.name).isSome
  "✓ " ++ path ++ " is valid QIR\n" ++
    "  Entry point: " ++ (entry.map Function.name).getD "" ++ "\n" ++
    "  Qubits:      " ++ toString ((entry.bind Function.qubitCount?).getD 0) ++ "\n" ++
    "  Results:     " ++ toString ((entry.bind Function.resultCount?).getD 0) ++ "\n" ++
    "  Intrinsics:  " ++ toString known.length ++ "\n" ++ nameLines known ++
    if external.isEmpty then ""
    else
      "  ! " ++ toString external.length ++ " declarations outside the intrinsic catalog\n" ++
        nameLines external

/-- Settings with those of the command line in front. -/
def withArguments (config : Config) (arguments : EvalArguments) : Config :=
  { config with
    limits := ⟨arguments.maxSteps <|> config.limits.steps,
      arguments.maxDepth.getD config.limits.depth⟩
    entryPoint := arguments.entryPoint <|> config.entryPoint }

/-- What an evaluation writes. -/
def evalReport (config : Config) (path : String) (arguments : EvalArguments) (module : Module) :
    Except Failure String := do
  let stream ← (arguments.results.mapM Outcomes.read).mapError .outcomes
  let (outcome, log) :=
    module.evaluate config.limits GateLog.observer config.entryPoint stream GateLog.empty
  let metadata ← outcome.mapError (.evaluation path)
  match arguments.format with
  | .text => return textReport log metadata
  | .json => return jsonReport log metadata

section

variable {m : Type → Type} [Monad m]

/-- A command in the middle of its work. -/
abbrev Working (m : Type → Type) := ExceptT Failure m

/-- Turns a failure into a failure of the command. -/
def ofExcept (result : Except Failure α) : Working m α :=
  ExceptT.mk (pure result)

/-- The text of a file. -/
def source (host : Host m) (path : String) : Working m String := do
  match ← (host.read path : m _) with
  | .ok text => return text
  | .error error => throw (if error.isMissing then .missing path else .unreadable path error)

/-- Writes a text to a file, or else to standard output. -/
def deliver (host : Host m) (text : String) (path : Option String) : Working m String := do
  match path with
  | none => return text
  | some path =>
    match ← (host.write path text : m _) with
    | .ok _ => return ""
    | .error error => throw (.unwritable path error)

/-- The settings of a file, if one is named, under those of the environment. -/
def settings (host : Host m) (lookup : String → Option String) (path : Option String) :
    Working m Config := do
  let text ← match path with
    | none => pure none
    | some path =>
      match ← (host.read path : m _) with
      | .ok text => pure (some text)
      | .error error => throw (.config (.file path error))
  ofExcept ((Config.load text lookup).mapError .config)

/-- The verified module in a file. -/
def loaded (host : Host m) (path : String) : Working m Module := do
  let text ← source host path
  ofExcept ((Module.load text).mapError (.load path))

/-- Does a command and gives what it writes on standard output. -/
def work (host : Host m) (config : Config) : Command → Working m String
  | .eval path arguments => do
    let config := withArguments config arguments
    ofExcept (config.validate.mapError .config)
    let module ← loaded host path
    ofExcept (evalReport config path arguments module)
  | .verify path => do
    return verifyReport path (← loaded host path)
  | .fmt path output => do
    let text ← source host path
    let module ← ofExcept ((Module.parse text).mapError (.parse path))
    deliver host module.text output
  | .generate demo qubits pattern output => do
    let module ← ofExcept ((demo.build qubits pattern).mapError .demo)
    deliver host module.text output
  | .version => return versionText

/-- Runs a command line. -/
def run (host : Host m) (lookup : String → Option String) (args : List String) : m Response := do
  match Invocation.parse args with
  | .error .usage => return ⟨2, "", none⟩
  | .error .version => return ⟨0, programName ++ " " ++ programVersion ++ "\n", none⟩
  | .ok invocation =>
    let work : Working m String := do
      work host (← settings host lookup invocation.config) invocation.command
    match ← work.run with
    | .ok output => return ⟨0, output, none⟩
    | .error failure => return ⟨1, "", some failure.message⟩

end

end QuantumIR.Cli
