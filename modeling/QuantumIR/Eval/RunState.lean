import QuantumIR.Bindings
import QuantumIR.Eval.Datum
import QuantumIR.Intrinsic
import QuantumIR.Module

/-!
What a run keeps beside its frames: the outcomes still to come, the outcomes that
results hold, what was measured and recorded, and how many qubits and results are
in use.
-/

namespace QuantumIR

/-- One measurement outcome. There is no result if the program gets it as a value. -/
structure Measurement where
  qubit : Nat
  result : Option Nat
  value : Bool
  deriving DecidableEq, Repr, Inhabited

/-- What a program records as its output. -/
inductive OutputValue where
  | result (value : Bool)
  | bool (value : Bool)
  | int (value : Int)
  | double (value : Double)
  /-- The start of an array of so many records. -/
  | array (length : Int)
  /-- The start of a tuple of so many records. -/
  | tuple (length : Int)
  deriving DecidableEq, Repr, Inhabited

def OutputValue.kind : OutputValue → RecordKind
  | result _ => .result
  | bool _ => .bool
  | int _ => .int
  | double _ => .double
  | array _ => .array
  | tuple _ => .tuple

/-- One record of a program's output. -/
structure OutputRecord where
  value : OutputValue
  label : Option String
  deriving DecidableEq, Repr, Inhabited

/-- What is known of a run that has come to its end. -/
structure RunMetadata where
  entryPoint : String
  /-- The declared number of qubits, or more if more were used. -/
  qubitCount : Nat
  /-- The declared number of results, or more if more were used. -/
  resultCount : Nat
  /-- How many instructions were executed. -/
  steps : Nat
  /-- How many outcomes were taken from the stream. -/
  consumed : Nat
  measurements : List Measurement
  output : List OutputRecord
  deriving DecidableEq, Repr, Inhabited

/-- What a run keeps beside its frames. -/
structure RunState where
  entryPoint : String
  /-- The outcomes still to come, or `none` if every outcome is false. -/
  stream : Option (List Bool)
  consumed : Nat
  results : Bindings Nat Bool
  measurements : Array Measurement
  output : Array OutputRecord
  steps : Nat
  qubitCount : Nat
  resultCount : Nat
  /-- The index of the next qubit that is allocated. -/
  nextQubit : Nat
  deriving DecidableEq, Repr, Inhabited

/-- A part of a run that touches no frame. -/
abbrev Run (α : Type) := StateT RunState (Except EvalError) α

namespace RunState

/-- The state before the first instruction. -/
def start (entry : Function) (stream : Option (List Bool)) : RunState :=
  let qubits := entry.qubitCount?.getD 0
  { entryPoint := entry.name, stream, consumed := 0, results := [], measurements := #[]
    output := #[], steps := 0, qubitCount := qubits
    resultCount := entry.resultCount?.getD 0, nextQubit := qubits }

def metadata (state : RunState) : RunMetadata :=
  { entryPoint := state.entryPoint, qubitCount := state.qubitCount
    resultCount := state.resultCount, steps := state.steps, consumed := state.consumed
    measurements := state.measurements.toList, output := state.output.toList }

end RunState

namespace Run

/-- The largest count of qubits or results. -/
def maxCount : Nat := UInt64.size - 1

/-- How many qubits or results there are if one of a given index is in use. -/
def countWith (count index : Nat) : Nat :=
  max count (min (index + 1) maxCount)

/-- Turns a failure into a failure of the run. -/
def ofExcept (result : Except EvalError α) : Run α := fun state =>
  result.map (·, state)

/-- The index of a qubit, which is in use from now on. -/
def qubit (datum : Datum) : Run Nat := do
  let index ← ofExcept (datum.index .qubit)
  modify fun state => { state with qubitCount := countWith state.qubitCount index }
  return index

/-- The index of a result, which is in use from now on. -/
def result (datum : Datum) : Run Nat := do
  let index ← ofExcept (datum.index .result)
  modify fun state => { state with resultCount := countWith state.resultCount index }
  return index

/-- The next outcome of the stream. -/
def outcome : Run Bool := fun state =>
  match state.stream with
  | none => .ok (false, state)
  | some [] => .error (.streamExhausted state.consumed)
  | some (value :: rest) =>
    .ok (value, { state with stream := some rest, consumed := state.consumed + 1 })

/-- Lets a result hold an outcome. -/
def store (index : Nat) (value : Bool) : Run Unit :=
  modify fun state => { state with results := state.results.set index value }

/-- The outcome that a result holds. -/
def stored? (index : Nat) : Run (Option Bool) := do
  return (← get).results.get? index

/-- The outcome behind a result. A result that holds none takes the next of the stream. -/
def read (datum : Datum) : Run Bool := do
  match datum with
  | .pointer (.outcome value) => return value
  | _ =>
    let index ← result datum
    match ← stored? index with
    | some value => return value
    | none =>
      let value ← outcome
      store index value
      return value

/-- The outcome behind a result, or false if it holds none. -/
def peek (datum : Datum) : Run Bool := do
  match datum with
  | .pointer (.outcome value) => return value
  | _ => return (← stored? (← result datum)).getD false

/-- Takes the next outcome for a qubit. -/
def measure (qubit : Nat) (result : Option Nat) : Run Bool := do
  let value ← outcome
  modify fun state =>
    { state with measurements := state.measurements.push { qubit, result, value } }
  return value

/-- Takes a qubit that was not in use before. -/
def allocate : Run Nat := fun state =>
  let index := state.nextQubit
  if index < maxCount then
    .ok (index, { state with
      nextQubit := index + 1, qubitCount := max state.qubitCount (index + 1) })
  else .error (.operand (.unallocatable index))

/-- The text of an output label. A null pointer is no label. -/
def label (module : Module) (datum : Datum) : Except EvalError (Option String) :=
  match datum with
  | .pointer (.index 0) => .ok none
  | .pointer (.global name) =>
    match module.global? name with
    | some global => .ok (some global.text)
    | none => .error (.operand (.unknownGlobal name))
  | _ => .error (.mismatch (.label datum.kind))

/-- Records output. -/
def record (module : Module) (value : OutputValue) (labelDatum : Datum) : Run Unit := do
  let label ← ofExcept (label module labelDatum)
  modify fun state => { state with output := state.output.push { value, label } }

end Run

end QuantumIR
