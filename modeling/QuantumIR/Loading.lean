import QuantumIR.Reading.Module
import QuantumIR.Verification

/-!
Loading: a text is read and then verified.
-/

namespace QuantumIR

/-- Why a file cannot be read or written. -/
inductive FileError where
  | notFound
  /-- The path goes on after a file as if that were a directory. -/
  | notDirectory
  | isDirectory
  | nameTooLong
  /-- The bytes of the file spell no text. -/
  | notText
  | other (message : String)
  deriving DecidableEq, Repr, Inhabited

namespace FileError

/-- Whether the path leads nowhere. -/
def isMissing : FileError → Bool
  | notFound | notDirectory | nameTooLong => true
  | _ => false

def message : FileError → String
  | notFound => "No such file or directory (os error 2)"
  | notDirectory => "Not a directory (os error 20)"
  | isDirectory => "Is a directory (os error 21)"
  | nameTooLong => "File name too long (os error 36)"
  | notText => "stream did not contain valid UTF-8"
  | other message => message

end FileError

/-- Why a text cannot be loaded. -/
inductive LoadError where
  | parse (error : ParseError)
  | verification (violation : Violation)
  | file (error : FileError)
  deriving DecidableEq, Repr, Inhabited

namespace LoadError

/-- What went wrong, without the stage at which it did. -/
def cause : LoadError → String
  | parse error => error.message
  | verification violation => violation.message
  | file error => error.message

def message (error : LoadError) : String :=
  (match error with
    | parse _ => "Parse error: "
    | verification _ => "Verification error: "
    | file _ => "I/O error: ") ++ error.cause

end LoadError

namespace Module

/-- The verified module that a text spells. -/
def load (source : String) : Except LoadError Module := do
  let module ← (parse source).mapError .parse
  (verify module).mapError .verification
  return module

/-- The verified module that the contents of a file spell. -/
def loadFile (contents : Except FileError String) : Except LoadError Module := do
  load (← contents.mapError .file)

end Module

end QuantumIR
