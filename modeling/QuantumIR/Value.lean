import QuantumIR.Double.Notation
import QuantumIR.Ty

/-!
Values in operand position. A value does not carry its type; an operand pairs the
two. A static qubit or result is a constant pointer whose address is its index.
-/

namespace QuantumIR

/-- A value as an instruction refers to it. -/
inductive Value where
  /-- The register `%name`. -/
  | reg (name : String)
  | int (value : Int64)
  | double (value : Double)
  | null
  /-- The pointer with a given address. -/
  | address (index : Int64)
  /-- The global `@name`. -/
  | global (name : String)
  /-- The first byte of the global string `@name` of `length` bytes. -/
  | firstByte (name : String) (length : UInt64)
  deriving DecidableEq, Repr, Inhabited

namespace Value

/-- The pointer that stands for a static index. Indices past the largest signed
word all share that word. -/
def ofIndex (index : Nat) : Value :=
  if index = 0 then .null else .address (Int64.ofNat (min index (UInt64.size / 2 - 1)))

/-- The static index that a constant pointer stands for. -/
def index? : Value → Option Nat
  | .null => some 0
  | .address n => if 0 ≤ n.toInt then some n.toInt.toNat else none
  | _ => none

/-- The name of the register that a value reads. -/
def reg? : Value → Option String
  | .reg name => some name
  | _ => none

/-- A value as it is written where its type is `ty`. -/
def text (value : Value) (ty : Ty) : String :=
  match value with
  | .reg name => "%" ++ Text.formatName name
  | .int n =>
    if ty = .bool then (if n = 0 then "false" else "true") else toString n.toInt
  | .double x => DoubleNotation.constant.format x
  | .null => "null"
  | .address n => "inttoptr (i64 " ++ toString n.toInt ++ " to " ++ ty.text ++ ")"
  | .global name => "@" ++ Text.formatName name
  | .firstByte name length =>
    let array := "[" ++ toString length.toNat ++ " x i8]"
    "getelementptr inbounds (" ++ array ++ ", " ++ array ++ "* @" ++ Text.formatName name ++
      ", i64 0, i64 0)"

/-- Replaces the number in a floating-point constant. -/
def mapDouble (f : Double → Double) : Value → Value
  | .double x => .double (f x)
  | value => value

/-- Whether a value is a floating-point constant that stands for no number. -/
def isNaN : Value → Bool
  | .double x => x.isNaN
  | _ => false

end Value

/-- A value with its type. -/
structure Operand where
  ty : Ty
  value : Value
  deriving DecidableEq, Repr, Inhabited

namespace Operand

def qubit (index : Nat) : Operand := ⟨.qubit, .ofIndex index⟩

def result (index : Nat) : Operand := ⟨.result, .ofIndex index⟩

def int (width : UInt32) (value : Int64) : Operand := ⟨.int width, .int value⟩

def double (value : Double) : Operand := ⟨.double, .double value⟩

/-- The label of output that has none. -/
def noLabel : Operand := ⟨.label, .null⟩

/-- An operand as it is written. -/
def text (operand : Operand) : String :=
  operand.ty.text ++ " " ++ operand.value.text operand.ty

end Operand

/-- The index of a qubit that exists from the start. -/
structure QubitId where
  index : Nat
  deriving DecidableEq, Repr

/-- The index of a result that exists from the start. -/
structure ResultId where
  index : Nat
  deriving DecidableEq, Repr

def QubitId.text (id : QubitId) : String := "q" ++ toString id.index

def ResultId.text (id : ResultId) : String := "r" ++ toString id.index

instance : Coe QubitId Operand where
  coe id := .qubit id.index

instance : Coe ResultId Operand where
  coe id := .result id.index

end QuantumIR
