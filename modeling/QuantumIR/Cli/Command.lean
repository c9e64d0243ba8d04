import QuantumIR.Cli.Arguments
import QuantumIR.Demo
import QuantumIR.Text.Numeral

/-!
The commands of the command line and how they are given.
-/

namespace QuantumIR.Cli

/-- How the outcome of an evaluation is written. -/
inductive Format where
  | text
  | json
  deriving DecidableEq, Repr, Inhabited

def Format.ofName? : String → Option Format
  | "text" => some .text
  | "json" => some .json
  | _ => none

/-- What an evaluation is given on the command line. -/
structure EvalArguments where
  entryPoint : Option String
  results : Option String
  maxSteps : Option Nat
  maxDepth : Option Nat
  format : Format
  deriving DecidableEq, Repr, Inhabited

/-- What is to be done. -/
inductive Command where
  | eval (input : String) (arguments : EvalArguments)
  | verify (input : String)
  /-- Writes a module in its canonical form. -/
  | fmt (input : String) (output : Option String)
  | generate (demo : Demo) (qubits pattern : Option Nat) (output : Option String)
  | version
  deriving DecidableEq, Repr, Inhabited

/-- A command with the file of settings, if one is given. -/
structure Invocation where
  config : Option String
  command : Command
  deriving DecidableEq, Repr, Inhabited

/-- The flags that can stand before and after the name of a command. -/
def globalFlags : List Flag :=
  [⟨"verbose", some 'v', .count⟩, ⟨"config", some 'c', .path⟩]

/-- The flags that stand before the name of a command only. -/
def leadingFlags : List Flag :=
  ⟨"version", some 'V', .version⟩ :: globalFlags

def outputFlag : Flag := ⟨"output", some 'o', .path⟩

def evalFlags : List Flag :=
  [⟨"entry-point", some 'e', .text⟩, ⟨"results", some 'r', .text⟩, ⟨"max-steps", none, .text⟩,
   ⟨"max-call-depth", none, .text⟩, ⟨"format", some 'f', .text⟩]

def generateFlags : List Flag :=
  [⟨"qubits", some 'q', .text⟩, ⟨"pattern", some 'p', .text⟩, outputFlag]

/-- A value that has to be of a certain form. -/
def require (value : Option α) : Except Stop α :=
  match value with
  | some a => .ok a
  | none => .error .usage

namespace Words

/-- The value of a flag. -/
def value? (words : Words) (word : String) : Option String :=
  words.values.get? word

/-- The value of a flag that takes a count. -/
def count? (words : Words) (word : String) : Except Stop (Option Nat) :=
  (words.value? word).mapM fun text => require (Text.count? text.toList)

/-- The only argument. -/
def argument (words : Words) : Except Stop String :=
  match words.arguments with
  | [argument] => .ok argument
  | _ => .error .usage

/-- The only argument, which is the path of a file. -/
def input (words : Words) : Except Stop String := do
  let path ← words.argument
  if path.isEmpty then throw .usage
  return path

end Words

namespace Command

/-- The flags of a command by its name. -/
def flags? : String → Option (List Flag)
  | "eval" => some evalFlags
  | "verify" => some []
  | "fmt" => some [outputFlag]
  | "generate" => some generateFlags
  | "version" => some []
  | _ => none

/-- The arguments of an evaluation. -/
def evalArguments (words : Words) : Except Stop EvalArguments := do
  return {
    entryPoint := words.value? "entry-point"
    results := words.value? "results"
    maxSteps := ← words.count? "max-steps"
    maxDepth := ← words.count? "max-call-depth"
    format := ← require (Format.ofName? ((words.value? "format").getD "text")) }

/-- The command of a name and of the words after it. -/
def ofWords (name : String) (words : Words) : Except Stop Command := do
  match name with
  | "eval" => return .eval (← words.input) (← evalArguments words)
  | "verify" => return .verify (← words.input)
  | "fmt" => return .fmt (← words.input) (words.value? "output")
  | "generate" =>
    return .generate (← require (Demo.ofName? (← words.argument))) (← words.count? "qubits")
      (← words.count? "pattern") (words.value? "output")
  | "version" => if words.arguments.isEmpty then return .version else throw .usage
  | _ => throw .usage

end Command

/-- Reads a command line. Settings named after the command take the place of those named before
it. -/
def Invocation.parse (args : List String) : Except Stop Invocation := do
  let (leading, rest) ← Words.empty.read leadingFlags true args
  match rest with
  | [] => throw .usage
  | name :: rest =>
    let flags ← require (Command.flags? name)
    let (words, _) ← Words.empty.read (flags ++ globalFlags) false rest
    let command ← Command.ofWords name words
    return { config := words.value? "config" <|> leading.value? "config", command }

end QuantumIR.Cli
