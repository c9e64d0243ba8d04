import QuantumIR.Double.Decimal
import QuantumIR.Word

/-!
What a register holds while a program runs. The type that an instruction writes
decides how a constant is read; a value that was computed keeps its own kind.
-/

namespace QuantumIR

/-- What a pointer points to. -/
inductive Pointee where
  /-- A qubit or a result. The null pointer has index zero. -/
  | index (index : Nat)
  /-- A result that has its outcome already. -/
  | outcome (value : Bool)
  /-- A global string. -/
  | global (name : String)
  deriving DecidableEq, Repr, Inhabited

/-- A value while a program runs. -/
inductive Datum where
  | int (width : UInt32) (bits : Nat)
  | double (value : Double)
  | pointer (target : Pointee)
  deriving DecidableEq, Repr, Inhabited

namespace Datum

def kind : Datum → ValueKind
  | int width _ => .int width
  | double _ => .double
  | pointer _ => .pointer

/-- A truth value. -/
def bool (value : Bool) : Datum := .int 1 value.toNat

def outcome (value : Bool) : Datum := .pointer (.outcome value)

/-- The word of an integer that has to have a given width. -/
def word (width : UInt32) (datum : Datum) : Except EvalError Nat :=
  match datum with
  | int found bits =>
    if found = width then .ok bits else .error (.mismatch (.integer width datum.kind))
  | _ => .error (.mismatch (.integer width datum.kind))

/-- An integer of 64 bits, read as a signed number. -/
def signed64 (datum : Datum) : Except EvalError Int := do
  return Word.signed (← datum.word 64) 64

/-- An integer of one bit, which counts as true unless its word is zero. -/
def truth (datum : Datum) : Except EvalError Bool := do
  return (← datum.word 1) ≠ 0

def number (datum : Datum) : Except EvalError Double :=
  match datum with
  | double value => .ok value
  | _ => .error (.mismatch (.double datum.kind))

/-- The index that a pointer into a register stands for. -/
def index (register : Register) (datum : Datum) : Except EvalError Nat :=
  match datum with
  | pointer (.index index) => .ok index
  | _ => .error (.mismatch (.pointer register datum.kind))

/-- A constant where its type is `ty`. -/
def ofConstant (ty : Ty) (value : Int64) : Except EvalError Datum :=
  match ty with
  | .int width => do
    Word.checkWidth width
    return .int width (Word.truncate value width)
  | .double => .ok (.double (Double.ofInt value.toInt))
  | _ => .error (.mismatch (.constant value ty))

end Datum

end QuantumIR
