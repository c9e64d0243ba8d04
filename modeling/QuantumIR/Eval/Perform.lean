import QuantumIR.Eval.RunState
import QuantumIR.Operation

/-!
What the functions of the catalog do. A quantum instruction becomes one operation;
a function of the runtime reads or records values and becomes none.
-/

namespace QuantumIR

/-- What a function of the catalog has done: the operation it has become, and the value
it returns. -/
structure Effect where
  operation : Option Operation
  value : Option Datum
  deriving DecidableEq, Repr, Inhabited

namespace Effect

/-- Neither an operation nor a value. -/
def none : Effect := ⟨.none, .none⟩

def ofOperation (operation : Operation) : Effect := ⟨some operation, .none⟩

def ofValue (value : Datum) : Effect := ⟨.none, some value⟩

end Effect

namespace Run

/-- The effect of a quantum instruction that only becomes an operation. -/
def operation (operation : Operation) : Run Effect :=
  return .ofOperation operation

/-- Measures a qubit into a result. -/
def measureInto (qubitDatum resultDatum : Datum) (make : Nat → Nat → Operation) : Run Effect := do
  let index ← qubit qubitDatum
  let target ← result resultDatum
  store target (← measure index (some target))
  operation (make index target)

/-- The value that a function records. -/
def recorded (kind : RecordKind) (datum : Datum) : Run OutputValue :=
  match kind with
  | .result => return .result (← peek datum)
  | .bool => return .bool (← ofExcept datum.truth)
  | .int => return .int (← ofExcept datum.signed64)
  | .double => return .double (← ofExcept datum.number)
  | .array => return .array (← ofExcept datum.signed64)
  | .tuple => return .tuple (← ofExcept datum.signed64)

/-- Calls a function of the catalog. -/
def perform (module : Module) (intrinsic : Intrinsic) (args : List Datum) : Run Effect := do
  match intrinsic, args with
  | .barrier, [] => operation .barrier
  | .toffoli, [a, b, c] => operation (.toffoli (← qubit a) (← qubit b) (← qubit c))
  | .controlled gate, [a, b] => operation (.controlled gate (← qubit a) (← qubit b))
  | .single gate, [a] => operation (.single gate (← qubit a))
  | .rotate axis, [theta, a] => operation (.rotate axis (← ofExcept theta.number) (← qubit a))
  | .rotatePair axis, [theta, a, b] =>
    operation (.rotatePair axis (← ofExcept theta.number) (← qubit a) (← qubit b))
  | .swap, [a, b] => operation (.swap (← qubit a) (← qubit b))
  | .reset, [a] => operation (.reset (← qubit a))
  | .measure, [a] =>
    let index ← qubit a
    let value ← measure index none
    return ⟨some (.measure index), some (.outcome value)⟩
  | .measureInto, [a, r] => measureInto a r .measureInto
  | .measureReset, [a, r] => measureInto a r .measureReset
  | .readResult, [r] => return .ofValue (.bool (← read r))
  | .setUp, [_] => return .none
  | .record kind, [datum, labelDatum] =>
    record module (← recorded kind datum) labelDatum
    return .none
  | .resultOf value, [] => return .ofValue (.outcome value)
  | .resultEqual, [a, b] =>
    let first ← read a
    let second ← read b
    return .ofValue (.bool (first == second))
  | .qubitAllocate, [] => return .ofValue (.pointer (.index (← allocate)))
  | .qubitRelease, [_] => return .none
  | _, _ =>
    throw (.operand (.argumentCount intrinsic.name intrinsic.signature.params.length args.length))

end Run

end QuantumIR
