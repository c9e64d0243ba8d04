import QuantumIR.Eval.Machine
import QuantumIR.JsonValue

/-!
The gate log: an observer that writes one line for each operation, and the JSON
form of what a run has done.
-/

namespace QuantumIR

/-- The operations of a run, and the counts that head the log once the run has ended. -/
structure GateLog where
  operations : Array Operation
  qubitCount : Nat
  outCount : Nat
  deriving DecidableEq, Repr, Inhabited

namespace GateLog

/-- A log of nothing. -/
def empty : GateLog := ⟨#[], 0, 0⟩

/-- Writes the log of a run. The count of outcomes is the number of qubits as well, not that of
results. -/
def observer : Observer GateLog where
  apply operation log := { log with operations := log.operations.push operation }
  finish metadata log :=
    { log with qubitCount := metadata.qubitCount, outCount := metadata.qubitCount }

/-- One line for each operation. -/
def lines (log : GateLog) : List String :=
  log.operations.toList.map Operation.line

/-- The whole log, counts first. -/
def text (log : GateLog) : String :=
  String.join <|
    (("qubits[" ++ toString log.qubitCount ++ "]") :: ("out[" ++ toString log.outCount ++ "]") ::
      log.lines).map fun line => line ++ "\n"

end GateLog

/-- The name of an operation in JSON, where no two kinds share one. -/
def Operation.tag : Operation → String
  | measureInto .. => "mz"
  | measureReset .. => "m_reset_z"
  | op => op.name

/-- The arguments of an operation by their names. -/
def Operation.fields : Operation → List (String × JsonValue)
  | barrier => []
  | toffoli control₁ control₂ target =>
    [("control1", .nat control₁), ("control2", .nat control₂), ("target", .nat target)]
  | controlled _ control target => [("control", .nat control), ("target", .nat target)]
  | single _ qubit | reset qubit | measure qubit => [("qubit", .nat qubit)]
  | rotate _ theta qubit => [("theta", .double theta), ("qubit", .nat qubit)]
  | rotatePair _ theta qubit₁ qubit₂ =>
    [("theta", .double theta), ("qubit1", .nat qubit₁), ("qubit2", .nat qubit₂)]
  | swap qubit₁ qubit₂ => [("qubit1", .nat qubit₁), ("qubit2", .nat qubit₂)]
  | measureInto qubit result | measureReset qubit result =>
    [("qubit", .nat qubit), ("result", .nat result)]

def Operation.json (op : Operation) : JsonValue :=
  .object (("op", .string op.tag) :: op.fields)

def Measurement.json (measurement : Measurement) : JsonValue :=
  .object [("qubit", .nat measurement.qubit),
    ("result", .optional .nat measurement.result),
    ("value", .bool measurement.value)]

/-- What a record holds, under the name it has in JSON. -/
def OutputValue.field : OutputValue → String × JsonValue
  | result value | bool value => ("value", .bool value)
  | int value => ("value", .int value)
  | double value => ("value", .double value)
  | array length | tuple length => ("len", .int length)

def OutputRecord.json (record : OutputRecord) : JsonValue :=
  .object [("kind", .string record.value.kind.word), record.value.field,
    ("label", .optional .string record.label)]

def RunMetadata.json (metadata : RunMetadata) : JsonValue :=
  .object [("entry_point", .string metadata.entryPoint),
    ("num_qubits", .nat metadata.qubitCount), ("num_results", .nat metadata.resultCount),
    ("steps", .nat metadata.steps), ("consumed", .nat metadata.consumed),
    ("measurements", .array (metadata.measurements.map Measurement.json)),
    ("output", .array (metadata.output.map OutputRecord.json))]

end QuantumIR
