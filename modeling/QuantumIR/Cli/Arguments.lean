import QuantumIR.Bindings

/-!
Words of a command line. A flag is given by a letter or by a word, with its value
attached or as the next word. Letters can be given in one row, of which only the last
may have a value. After two dashes alone every word is an argument.
-/

namespace QuantumIR.Cli

/-- What a flag does. -/
inductive FlagKind where
  /-- It has no value and may be repeated. -/
  | count
  /-- It has a value, which may be empty. -/
  | text
  /-- It has a value, which must not be empty. -/
  | path
  /-- It asks for the version and ends the reading. -/
  | version
  deriving DecidableEq, Repr, Inhabited

/-- A flag by its word and by its letter, if it has one. -/
structure Flag where
  word : String
  letter : Option Char
  kind : FlagKind
  deriving DecidableEq, Repr, Inhabited

/-- Why a command line is not run. -/
inductive Stop where
  /-- It is not one of the forms that are understood. -/
  | usage
  /-- It asks for the version. -/
  | version
  deriving DecidableEq, Repr, Inhabited

/-- What was read of a row of words. -/
structure Words where
  values : Bindings String String
  arguments : List String
  /-- The flag that the next word is the value of. -/
  pending : Option Flag
  deriving DecidableEq, Repr, Inhabited

namespace Words

def empty : Words := ⟨[], [], none⟩

/-- Gives a flag its value. No flag has two. -/
def assign (words : Words) (flag : Flag) (value : String) : Except Stop Words :=
  if (words.values.get? flag.word).isSome || (flag.kind = .path && value.isEmpty) then
    .error .usage
  else .ok { words with values := words.values.set flag.word value, pending := none }

/-- A row of letters. -/
def readLetters (flags : List Flag) (words : Words) : List Char → Except Stop Words
  | [] => .ok words
  | letter :: rest =>
    match flags.find? fun flag => flag.letter = some letter with
    | none => .error .usage
    | some flag =>
      match flag.kind with
      | .version => .error .version
      | .count => readLetters flags words rest
      | .text | .path =>
        match rest with
        | [] => .ok { words with pending := some flag }
        | '=' :: value => words.assign flag (String.ofList value)
        | value => words.assign flag (String.ofList value)

/-- A word after two dashes, with a value after an equals sign if there is one. -/
def readLong (flags : List Flag) (words : Words) (text : List Char) : Except Stop Words :=
  let name := text.takeWhile (· ≠ '=')
  let value := (text.dropWhile (· ≠ '=')).tail?.map String.ofList
  match flags.find? fun flag => flag.word.toList = name with
  | none => .error .usage
  | some flag =>
    match flag.kind, value with
    | .version, none => .error .version
    | .count, none => .ok words
    | .version, some _ | .count, some _ => .error .usage
    | .text, some value | .path, some value => words.assign flag value
    | .text, none | .path, none => .ok { words with pending := some flag }

/-- Whether a word is a flag. A dash alone is none. -/
def isFlag (word : String) : Bool :=
  word.toList.head? = some '-' && word ≠ "-"

/-- A word that is a flag. -/
def readFlag (flags : List Flag) (words : Words) (word : String) : Except Stop Words :=
  match word.toList with
  | '-' :: '-' :: text => readLong flags words text
  | _ :: letters => readLetters flags words letters
  | [] => .error .usage

/-- Reads words up to the first argument if `toArgument` is set, and else all of them. What
is left are the words from that argument on. -/
def read (flags : List Flag) (toArgument : Bool) (words : Words) :
    List String → Except Stop (Words × List String)
  | [] => if words.pending.isSome then .error .usage else .ok (words, [])
  | word :: rest =>
    match words.pending with
    | some flag =>
      if isFlag word then .error .usage
      else do read flags toArgument (← words.assign flag word) rest
    | none =>
      if word = "--" then
        if toArgument then .error .usage
        else .ok ({ words with arguments := words.arguments ++ rest }, [])
      else if isFlag word then do read flags toArgument (← readFlag flags words word) rest
      else if toArgument then .ok (words, word :: rest)
      else read flags toArgument { words with arguments := words.arguments ++ [word] } rest

end Words

end QuantumIR.Cli
