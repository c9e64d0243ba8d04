import QuantumIR.Ty

/-!
The catalog of functions that quantum programs call by convention. Quantum
instructions are called `__quantum__qis__…`, functions of the runtime
`__quantum__rt__…`. The catalog fixes name and signature of each.
-/

namespace QuantumIR

/-- Gates on one qubit without a parameter. -/
inductive Gate where
  | h | s | sAdj | t | tAdj | x | y | z
  deriving DecidableEq, Repr, Inhabited

/-- Axes of rotation. -/
inductive Axis where
  | x | y | z
  deriving DecidableEq, Repr, Inhabited

/-- Pauli gates that come with a control qubit. -/
inductive ControlledGate where
  | x | z
  deriving DecidableEq, Repr, Inhabited

/-- What a function that records output records. -/
inductive RecordKind where
  | result | array | tuple | bool | int | double
  deriving DecidableEq, Repr, Inhabited

/-- A function of the catalog. -/
inductive Intrinsic where
  | barrier
  | toffoli
  | controlled (gate : ControlledGate)
  | single (gate : Gate)
  | rotate (axis : Axis)
  | rotatePair (axis : Axis)
  | swap
  | reset
  /-- Measures a qubit and returns the outcome. -/
  | measure
  /-- Measures a qubit into a result. -/
  | measureInto
  /-- Measures a qubit into a result and resets it. -/
  | measureReset
  | readResult
  /-- Prepares the runtime. -/
  | setUp
  | record (kind : RecordKind)
  /-- The result that stands for one, or the one that stands for zero. -/
  | resultOf (value : Bool)
  | resultEqual
  | qubitAllocate
  | qubitRelease
  deriving DecidableEq, Repr, Inhabited

/-- The types of a function's value and parameters. -/
structure Signature where
  ret : Ty
  params : List Ty
  deriving DecidableEq, Repr, Inhabited

def Signature.text (signature : Signature) : String :=
  signature.ret.text ++ " (" ++ ", ".intercalate (signature.params.map Ty.text) ++ ")"

def Gate.all : List Gate := [h, s, sAdj, t, tAdj, x, y, z]

def Axis.all : List Axis := [x, y, z]

def ControlledGate.all : List ControlledGate := [x, z]

def RecordKind.all : List RecordKind := [result, array, tuple, bool, int, double]

/-- How a gate is called in function names, with `adj` for the adjoint of another gate. -/
def Gate.functionSuffix : Gate → String
  | h => "h__body"
  | s => "s__body"
  | sAdj => "s__adj"
  | t => "t__body"
  | tAdj => "t__adj"
  | x => "x__body"
  | y => "y__body"
  | z => "z__body"

def Axis.letter : Axis → String
  | x => "x"
  | y => "y"
  | z => "z"

def ControlledGate.functionWord : ControlledGate → String
  | x => "cnot"
  | z => "cz"

def RecordKind.word : RecordKind → String
  | result => "result"
  | array => "array"
  | tuple => "tuple"
  | bool => "bool"
  | int => "int"
  | double => "double"

namespace Intrinsic

/-- Every function of the catalog. -/
def all : List Intrinsic :=
  [barrier, toffoli] ++ ControlledGate.all.map controlled ++ Gate.all.map single ++
    Axis.all.map rotate ++ Axis.all.map rotatePair ++
    [swap, reset, measure, measureInto, measureReset, readResult, setUp] ++
    RecordKind.all.map record ++ [resultOf true, resultOf false, resultEqual] ++
    [qubitAllocate, qubitRelease]

/-- Whether a function is a quantum instruction and not one of the runtime. -/
def isQuantum : Intrinsic → Bool
  | setUp | record _ | resultOf _ | resultEqual | qubitAllocate | qubitRelease => false
  | _ => true

/-- The name of a function without the part that all quantum instructions or all
functions of the runtime share. -/
def shortName : Intrinsic → String
  | barrier => "barrier__body"
  | toffoli => "ccx__body"
  | controlled gate => gate.functionWord ++ "__body"
  | single gate => gate.functionSuffix
  | rotate axis => "r" ++ axis.letter ++ "__body"
  | rotatePair axis => "r" ++ axis.letter ++ axis.letter ++ "__body"
  | swap => "swap__body"
  | reset => "reset__body"
  | measure => "m__body"
  | measureInto => "mz__body"
  | measureReset => "mresetz__body"
  | readResult => "read_result__body"
  | setUp => "initialize"
  | record kind => kind.word ++ "_record_output"
  | resultOf true => "result_get_one"
  | resultOf false => "result_get_zero"
  | resultEqual => "result_equal"
  | qubitAllocate => "qubit_allocate"
  | qubitRelease => "qubit_release"

/-- The name by which programs call a function. -/
def name (intrinsic : Intrinsic) : String :=
  (if intrinsic.isQuantum then "__quantum__qis__" else "__quantum__rt__") ++ intrinsic.shortName

/-- The function of a name. The controlled X gate has a second name. -/
def ofName? (name : String) : Option Intrinsic :=
  if name = "__quantum__qis__cx__body" then some (controlled .x)
  else all.find? fun intrinsic => intrinsic.name = name

/-- The types a function is declared with. -/
def signature : Intrinsic → Signature
  | barrier => ⟨.void, []⟩
  | toffoli => ⟨.void, [.qubit, .qubit, .qubit]⟩
  | controlled _ | swap => ⟨.void, [.qubit, .qubit]⟩
  | single _ | reset | qubitRelease => ⟨.void, [.qubit]⟩
  | rotate _ => ⟨.void, [.double, .qubit]⟩
  | rotatePair _ => ⟨.void, [.double, .qubit, .qubit]⟩
  | measure => ⟨.result, [.qubit]⟩
  | measureInto | measureReset => ⟨.void, [.qubit, .result]⟩
  | readResult => ⟨.bool, [.result]⟩
  | setUp => ⟨.void, [.label]⟩
  | record .result => ⟨.void, [.result, .label]⟩
  | record .bool => ⟨.void, [.bool, .label]⟩
  | record .double => ⟨.void, [.double, .label]⟩
  | record _ => ⟨.void, [.i64, .label]⟩
  | resultOf _ => ⟨.result, []⟩
  | resultEqual => ⟨.bool, [.result, .result]⟩
  | qubitAllocate => ⟨.qubit, []⟩

/-- Whether a function measures a qubit. -/
def isMeasurement : Intrinsic → Bool
  | measure | measureInto | measureReset => true
  | _ => false

/-- Whether a function cannot be undone: a measurement or a reset. -/
def isIrreversible (intrinsic : Intrinsic) : Bool :=
  intrinsic.isMeasurement || intrinsic = reset

end Intrinsic

end QuantumIR
