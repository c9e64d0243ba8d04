import QuantumIR.Text.Name

/-!
The types of the textual IR that quantum programs use. Qubits and results are
pointers to named types that nothing describes further.
-/

namespace QuantumIR

/-- A type. Widths and lengths are machine words, so every type that exists can be written. -/
inductive Ty where
  | void
  /-- Integers of `width` bits. -/
  | int (width : UInt32)
  | double
  /-- A type known by its name only, such as `%Qubit`. -/
  | named (name : String)
  /-- A pointer that says what it points to. -/
  | pointer (target : Ty)
  /-- A pointer that does not say what it points to. -/
  | ptr
  | array (length : UInt64) (element : Ty)
  deriving DecidableEq, Repr, Inhabited

namespace Ty

/-- The type of truth values. -/
def bool : Ty := .int 1

def i64 : Ty := .int 64

def qubit : Ty := .pointer (.named "Qubit")

def result : Ty := .pointer (.named "Result")

/-- The type of output labels. -/
def label : Ty := .pointer (.int 8)

/-- The width of an integer type. -/
def intWidth? : Ty → Option UInt32
  | .int width => some width
  | _ => none

def isPointer : Ty → Bool
  | .pointer _ | .ptr => true
  | _ => false

def isVoid : Ty → Bool
  | .void => true
  | _ => false

def isDouble : Ty → Bool
  | .double => true
  | _ => false

def isQubit (ty : Ty) : Bool := ty = qubit

def isResult (ty : Ty) : Bool := ty = result

/-- The name at the core of pointers and arrays, if there is one. -/
def names : Ty → List String
  | .named name => [name]
  | .pointer target => target.names
  | .array _ element => element.names
  | _ => []

/-- A type as it is written. -/
def text : Ty → String
  | .void => "void"
  | .int width => "i" ++ toString width.toNat
  | .double => "double"
  | .named name => "%" ++ Text.formatName name
  | .pointer target => target.text ++ "*"
  | .ptr => "ptr"
  | .array length element => "[" ++ toString length.toNat ++ " x " ++ element.text ++ "]"

end Ty

end QuantumIR
