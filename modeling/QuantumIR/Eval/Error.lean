import QuantumIR.Instruction

/-!
Why a run fails. Each cause says what was wanted and what was there; `message` words it.
-/

namespace QuantumIR

/-- What kind of value an instruction met. -/
inductive ValueKind where
  | int (width : UInt32)
  | double
  | pointer
  deriving DecidableEq, Repr, Inhabited

def ValueKind.text : ValueKind → String
  | int width => "i" ++ toString width.toNat
  | double => "double"
  | pointer => "pointer"

/-- The two registers that pointers index. -/
inductive Register where
  | qubit
  | result
  deriving DecidableEq, Repr, Inhabited

def Register.text : Register → String
  | qubit => "qubit"
  | result => "result"

/-- Why there is nothing to start from. -/
inductive EntryFault where
  /-- No function of a given name has a body. -/
  | noBody (name : String)
  /-- The module marks another number of entry points than one, or marks a declaration. -/
  | count (marked : Nat)
  deriving DecidableEq, Repr, Inhabited

/-- Where a value is not of the kind that its use asks for. -/
inductive Mismatch where
  | width (width : UInt32)
  | constant (value : Int64) (ty : Ty)
  | integer (width : UInt32) (found : ValueKind)
  | double (found : ValueKind)
  | pointer (register : Register) (found : ValueKind)
  | label (found : ValueKind)
  deriving DecidableEq, Repr, Inhabited

/-- Where integer arithmetic has no result. -/
inductive ArithmeticFault where
  | shift (op : BinaryOp) (amount : Nat) (width : UInt32)
  | divisionByZero (op : BinaryOp)
  | overflow (dividend : Int) (width : UInt32)
  deriving DecidableEq, Repr, Inhabited

/-- What a run cannot make sense of. -/
inductive OperandFault where
  | negativeIndex (index : Int64)
  | openBlock (label function : String)
  | unknownBlock (label function : String)
  | argumentCount (callee : String) (expected found : Nat)
  | unallocatable (index : Nat)
  | unknownGlobal (name : String)
  deriving DecidableEq, Repr, Inhabited

/-- Why a run fails. -/
inductive EvalError where
  | entryPointNotFound (fault : EntryFault)
  /-- Functions that have neither a body nor a place in the catalog. -/
  | unsupported (names : List String)
  | streamExhausted (consumed : Nat)
  | unbound (function name : String)
  | mismatch (mismatch : Mismatch)
  | arithmetic (fault : ArithmeticFault)
  | stepLimit (limit : Nat)
  | callDepth (limit : Nat)
  | operand (fault : OperandFault)
  deriving DecidableEq, Repr, Inhabited

/-- A name between backquotes. -/
def quoteName (name : String) : String := "`" ++ name ++ "`"

def EntryFault.message : EntryFault → String
  | noBody name => "no function " ++ quoteName name ++ " with a body"
  | count marked =>
    "module has " ++ toString marked ++ " functions marked as entry point, expected one"

def Mismatch.message : Mismatch → String
  | width bits => "integer width i" ++ toString bits.toNat ++ " is not supported"
  | constant value ty => "integer constant " ++ toString value.toInt ++ " used as " ++ ty.text
  | integer bits found => "expected i" ++ toString bits.toNat ++ ", found " ++ found.text
  | double found => "expected double, found " ++ found.text
  | pointer register found => "expected a " ++ register.text ++ " pointer, found " ++ found.text
  | label found => "expected an output label, found " ++ found.text

def ArithmeticFault.message : ArithmeticFault → String
  | shift op amount width =>
    op.mnemonic ++ " by " ++ toString amount ++ " at i" ++ toString width.toNat
  | divisionByZero op => op.mnemonic ++ " division by zero"
  | overflow dividend width =>
    "sdiv overflow: " ++ toString dividend ++ " / -1 at i" ++ toString width.toNat

def OperandFault.message : OperandFault → String
  | negativeIndex index => "negative pointer index " ++ toString index.toInt
  | openBlock label function =>
    "block " ++ quoteName label ++ " in " ++ quoteName function ++ " ends without a terminator"
  | unknownBlock label function =>
    "branch to unknown block " ++ quoteName label ++ " in " ++ quoteName function
  | argumentCount callee expected found =>
    quoteName callee ++ " takes " ++ toString expected ++ " arguments, got " ++ toString found
  | unallocatable index => "cannot allocate a qubit past index " ++ toString index
  | unknownGlobal name => "unknown global " ++ quoteName ("@" ++ name)

namespace EvalError

def message : EvalError → String
  | entryPointNotFound fault => "Entry point not found: " ++ fault.message
  | unsupported names => "Unsupported functions " ++ ", ".intercalate (names.map quoteName) ++ "."
  | streamExhausted consumed => "Result stream exhausted after " ++ toString consumed ++ " values"
  | unbound function name =>
    quoteName ("%" ++ name) ++ " is not bound in " ++ quoteName function
  | mismatch cause => "Type mismatch: " ++ cause.message
  | arithmetic fault => "Arithmetic error: " ++ fault.message
  | stepLimit limit => "Step limit of " ++ toString limit ++ " exceeded"
  | callDepth limit => "Call depth limit of " ++ toString limit ++ " exceeded"
  | operand fault => "Invalid operand: " ++ fault.message

/-- Whether the program itself is at fault. A missing entry point, an unknown
function and a stream that is too short are faults of the call. -/
def isEvaluationFault : EvalError → Bool
  | entryPointNotFound _ | unsupported _ | streamExhausted _ => false
  | _ => true

end EvalError

end QuantumIR
