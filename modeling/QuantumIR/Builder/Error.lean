import QuantumIR.Eval.Error
import QuantumIR.Intrinsic

/-!
Why a building step fails. Some causes lie in its arguments, the others in what was
built before it.
-/

namespace QuantumIR

/-- Why a building step fails. -/
inductive BuildError where
  | negativeCount (register : Register) (count : Int)
  | indexOutOfRange (register : Register) (index limit : Nat)
  /-- The name of the entry function, which nothing else can have. -/
  | reservedName (name : String)
  | redeclared (name : String) (declared used : Signature)
  | argumentCount (name : String) (expected found : Nat)
  | notPairRotation (name : String)
  | noValue (name : String)
  | width (width : UInt32)
  | conversion (conversion : Conversion) (source target : UInt32)
  | unknownBlock (label : String)
  | unknownTarget (label : String)
  | terminated (label : String)
  | unterminated (label : String)
  deriving DecidableEq, Repr, Inhabited

namespace BuildError

/-- Whether the cause lies in what was built before. -/
def isStateFault : BuildError → Bool
  | noValue _ | unknownTarget _ | terminated _ | unterminated _ => true
  | _ => false

/-- What went wrong. -/
def cause : BuildError → String
  | negativeCount register count =>
    register.text ++ " count must be non-negative, got " ++ toString count
  | indexOutOfRange register index limit =>
    register.text ++ " " ++ toString index ++ " out of range (module has " ++ toString limit ++
      " " ++ register.text ++ "s)"
  | reservedName name => quoteName name ++ " is reserved for the entry point"
  | redeclared name declared used =>
    quoteName name ++ " was declared as " ++ declared.text ++ " but is used as " ++ used.text
  | argumentCount name expected found =>
    quoteName name ++ " takes " ++ toString expected ++ " arguments, got " ++ toString found
  | notPairRotation name => quoteName name ++ " is not a two-qubit rotation"
  | noValue name => quoteName name ++ " produced no value"
  | width bits => "integer width must be between 1 and 64, got " ++ toString bits.toNat
  | conversion op source target =>
    "cannot " ++ op.mnemonic ++ " i" ++ toString source.toNat ++ " to i" ++
      toString target.toNat
  | unknownBlock label => "no block labelled " ++ quoteName label
  | unknownTarget label => "branch to unknown block " ++ quoteName label
  | terminated label => "block " ++ quoteName label ++ " is already terminated"
  | unterminated label => "block " ++ quoteName label ++ " has no terminator"

def message (error : BuildError) : String :=
  (if error.isStateFault then "Invalid builder state: " else "Invalid argument: ") ++ error.cause

end BuildError

end QuantumIR
