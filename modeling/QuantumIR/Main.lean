import QuantumIR.Cli.Run

/-!
The program: command lines are run on the files of the system.
-/

namespace QuantumIR.Cli

/-- What the system says of a file that cannot be reached. Its codes come with either sign. -/
def fileError : IO.Error → FileError
  | .noFileOrDirectory .. => .notFound
  | .inappropriateType _ code _ =>
    if code = 21 || code = 0 - 21 then .isDirectory else .notDirectory
  | .invalidArgument _ code details =>
    if code = 36 || code = 0 - 36 then .nameTooLong else .other details
  | .permissionDenied .. => .other "Permission denied (os error 13)"
  | error => .other (toString error)

/-- The files of the system. -/
def systemHost : Host IO where
  read path := do
    match ← (IO.FS.readBinFile path).toBaseIO with
    | .error error => return .error (fileError error)
    | .ok bytes =>
      match String.fromUTF8? bytes with
      | some text => return .ok text
      | none => return .error .notText
  write path text := do
    match ← (IO.FS.writeFile path text).toBaseIO with
    | .error error => return .error (fileError error)
    | .ok _ => return .ok ()

end QuantumIR.Cli

open QuantumIR in
/-- Runs the command line and reports its failure on standard error. -/
def main (args : List String) : IO UInt32 := do
  let environment ← Config.variableNames.filterMapM fun name => do
    return (← IO.getEnv name).map (name, ·)
  let response ← Cli.run Cli.systemHost (environment.lookup ·) args
  IO.print response.output
  match response.error with
  | some message => IO.eprintln ("Error: " ++ message)
  | none => pure ()
  return response.exitCode
