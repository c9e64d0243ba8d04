import QuantumIR.Builder.Step
import QuantumIR.Eval.RunState
import QuantumIR.Operation

/-!
Structured programs: operations, output, and branches on what results hold, nested in each other to
any depth. Each statement is one step of a builder. Programs are also interpreted directly, by
recursion over the statements, with a place in the stream of outcomes and the outcomes that results
hold, and without blocks, registers and branches.
-/

namespace QuantumIR

namespace Operation

/-- The function of the catalog that becomes an operation. -/
def callee : Operation → Intrinsic
  | barrier => .barrier
  | toffoli .. => .toffoli
  | controlled gate .. => .controlled gate
  | single gate _ => .single gate
  | rotate axis .. => .rotate axis
  | rotatePair axis .. => .rotatePair axis
  | swap .. => .swap
  | reset _ => .reset
  | measure _ => .measure
  | measureInto .. => .measureInto
  | measureReset .. => .measureReset

/-- The arguments of the call that becomes an operation: an angle, then qubits, then a result. -/
def args : Operation → List Value
  | rotate _ theta qubit => [.double theta, .ofIndex qubit]
  | rotatePair _ theta qubit₁ qubit₂ => [.double theta, .ofIndex qubit₁, .ofIndex qubit₂]
  | measureInto qubit result | measureReset qubit result => [.ofIndex qubit, .ofIndex result]
  | operation => operation.qubits.map .ofIndex

/-- The qubits and the result of an operation exist, and a measurement has a result. -/
structure InRange (qubitCount resultCount : Nat) (operation : Operation) : Prop where
  qubits : ∀ qubit ∈ operation.qubits, qubit < qubitCount
  result : ∀ result ∈ operation.result?, result < resultCount
  measured : operation.isMeasurement → operation.result?.isSome

/-- Without a measurement, only the qubits have to exist. -/
theorem InRange.of_unmeasured {qubitCount resultCount : Nat} {operation : Operation}
    (hqubits : ∀ qubit ∈ operation.qubits, qubit < qubitCount) (hresult : operation.result? = none)
    (hmeasurement : operation.isMeasurement = false) :
    operation.InRange qubitCount resultCount where
  qubits := hqubits
  result := by simp [hresult]
  measured := by simp [hmeasurement]

end Operation

/-- A statement of a structured program. -/
inductive Statement where
  | perform (operation : Operation)
  /-- Records the outcome that a result holds, under a label if there is one. -/
  | record (result : Nat) (label : Option String)
  /-- Runs one of two programs, by the outcome that a result holds. -/
  | ifResult (result : Nat) (onOne onZero : List Statement)
  deriving Repr, Inhabited

/-- What is known in the middle of a direct interpretation. -/
structure Ledger where
  /-- How many outcomes were taken from the stream. -/
  position : Nat
  /-- The outcomes that results hold. -/
  results : Bindings Nat Bool
  operations : List Operation
  measurements : List Measurement
  output : List OutputRecord
  deriving DecidableEq, Repr, Inhabited

/-- Nothing has happened yet. -/
def Ledger.empty : Ledger := ⟨0, [], [], [], []⟩

/-- A part of a direct interpretation. What was known before a failure stays known. -/
abbrev Interpreting (α : Type) := ExceptT EvalError (StateM Ledger) α

namespace Interpreting

variable (stream : Option (List Bool))

/-- The next outcome of a stream. Without a stream every outcome is false. -/
def outcome : Interpreting Bool := do
  let position := (← get).position
  match stream with
  | none => return false
  | some outcomes =>
    match outcomes[position]? with
    | some value =>
      modify fun ledger => { ledger with position := position + 1 }
      return value
    | none => throw (.streamExhausted position)

/-- Lets a result hold an outcome. -/
def store (result : Nat) (value : Bool) : Interpreting Unit :=
  modify fun ledger => { ledger with results := ledger.results.set result value }

/-- Takes the next outcome for a qubit. -/
def measure (qubit result : Nat) : Interpreting Bool := do
  let value ← outcome stream
  modify fun ledger =>
    { ledger with measurements := ledger.measurements ++ [⟨qubit, some result, value⟩] }
  return value

/-- Measures a qubit into a result, if an operation does so. -/
def measureFor (operation : Operation) : Interpreting Unit := do
  match operation with
  | .measureInto qubit result | .measureReset qubit result =>
    store result (← measure stream qubit result)
  | _ => return ()

/-- Performs an operation, after the measurement if it is one. -/
def perform (operation : Operation) : Interpreting Unit := do
  measureFor stream operation
  modify fun ledger => { ledger with operations := ledger.operations ++ [operation] }

/-- The outcome that a result holds. -/
def stored? (result : Nat) : Interpreting (Option Bool) := do
  return (← get).results.get? result

/-- The outcome of a result. A result that holds none takes the next of the stream. -/
def read (result : Nat) : Interpreting Bool := do
  match ← stored? result with
  | some value => return value
  | none =>
    let value ← outcome stream
    store result value
    return value

/-- Adds a record to the output. -/
def put (value : OutputValue) (label : Option String) : Interpreting Unit :=
  modify fun ledger => { ledger with output := ledger.output ++ [⟨value, label⟩] }

/-- Records the outcome that a result holds, or false if it holds none. -/
def record (result : Nat) (label : Option String) : Interpreting Unit := do
  let value := .result ((← stored? result).getD false)
  modify fun ledger => { ledger with output := ledger.output ++ [⟨value, label⟩] }

end Interpreting

namespace Statement

mutual

/-- The building step that a statement stands for. -/
def step : Statement → BuildStep
  | .perform (.rotatePair axis theta qubit₁ qubit₂) =>
    .rotatePair (.rotatePair axis) theta (.ofIndex qubit₁) (.ofIndex qubit₂)
  | .perform operation => .perform operation.callee operation.args
  | .record result label => .record .result (.ofIndex result) label
  | .ifResult result onOne onZero => .ifResult (.ofIndex result) (steps onOne) (steps onZero)

/-- The building steps of a program. -/
def steps : List Statement → List BuildStep
  | [] => []
  | statement :: rest => step statement :: steps rest

end

mutual

/-- The qubits and results of a statement exist. -/
def InRange (qubits results : Nat) : Statement → Prop
  | .perform operation => operation.InRange qubits results
  | .record result _ => result < results
  | .ifResult result onOne onZero =>
    result < results ∧ AllInRange qubits results onOne ∧ AllInRange qubits results onZero

/-- The qubits and results of a program exist. -/
def AllInRange (qubits results : Nat) : List Statement → Prop
  | [] => True
  | statement :: rest => InRange qubits results statement ∧ AllInRange qubits results rest

end

mutual

/-- Interprets a statement. -/
def interpret (stream : Option (List Bool)) : Statement → Interpreting Unit
  | .perform operation => Interpreting.perform stream operation
  | .record result label => Interpreting.record result label
  | .ifResult result onOne onZero => do
    if ← Interpreting.read stream result then interpretAll stream onOne
    else interpretAll stream onZero

/-- Interprets the statements of a program one after the other. -/
def interpretAll (stream : Option (List Bool)) : List Statement → Interpreting Unit
  | [] => return ()
  | statement :: rest => do
    interpret stream statement
    interpretAll stream rest

end

end Statement

end QuantumIR
