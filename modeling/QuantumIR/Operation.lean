import QuantumIR.Double.Notation
import QuantumIR.Intrinsic

/-!
Quantum operations: what a program asks of the machine it runs on, with the
indices of qubits and results. An operation is also written as one line of a log.
-/

namespace QuantumIR

/-- One quantum operation. -/
inductive Operation where
  | barrier
  | toffoli (control₁ control₂ target : Nat)
  | controlled (gate : ControlledGate) (control target : Nat)
  | single (gate : Gate) (qubit : Nat)
  | rotate (axis : Axis) (theta : Double) (qubit : Nat)
  | rotatePair (axis : Axis) (theta : Double) (qubit₁ qubit₂ : Nat)
  | swap (qubit₁ qubit₂ : Nat)
  | reset (qubit : Nat)
  /-- Measures a qubit and hands the outcome to the program. -/
  | measure (qubit : Nat)
  /-- Measures a qubit into a result. -/
  | measureInto (qubit result : Nat)
  /-- Measures a qubit into a result and resets it. -/
  | measureReset (qubit result : Nat)
  deriving DecidableEq, Repr, Inhabited

/-- The short name of a gate. -/
def Gate.word : Gate → String
  | h => "h"
  | s => "s"
  | sAdj => "s_adj"
  | t => "t"
  | tAdj => "t_adj"
  | x => "x"
  | y => "y"
  | z => "z"

def ControlledGate.word : ControlledGate → String
  | x => "cx"
  | z => "cz"

namespace Operation

/-- The short name of an operation. Both plain measurements are called `m`. -/
def name : Operation → String
  | barrier => "barrier"
  | toffoli .. => "ccx"
  | controlled gate .. => gate.word
  | single gate _ => gate.word
  | rotate axis .. => "r" ++ axis.letter
  | rotatePair axis .. => "r" ++ axis.letter ++ axis.letter
  | swap .. => "swap"
  | reset _ => "reset"
  | measure _ => "m"
  | measureInto .. => "m"
  | measureReset .. => "mresetz"

/-- The qubits that an operation acts on, in the order of its arguments. -/
def qubits : Operation → List Nat
  | barrier => []
  | toffoli control₁ control₂ target => [control₁, control₂, target]
  | controlled _ control target => [control, target]
  | single _ qubit | rotate _ _ qubit | reset qubit => [qubit]
  | rotatePair _ _ qubit₁ qubit₂ | swap qubit₁ qubit₂ => [qubit₁, qubit₂]
  | measure qubit | measureInto qubit _ | measureReset qubit _ => [qubit]

/-- The result that an operation measures into. -/
def result? : Operation → Option Nat
  | measureInto _ result | measureReset _ result => some result
  | _ => none

def isMeasurement : Operation → Bool
  | measure _ | measureInto .. | measureReset .. => true
  | _ => false

/-- A qubit in a line of a log. -/
def qubitText (qubit : Nat) : String :=
  "qubit[" ++ toString qubit ++ "]"

/-- Several qubits in a line of a log. -/
def qubitsText (qubits : List Nat) : String :=
  ", ".intercalate (qubits.map qubitText)

/-- An angle in a line of a log. -/
def thetaText (theta : Double) : String :=
  "theta[" ++ DoubleNotation.log.format theta ++ "]"

/-- An operation as a line of a log. A reset names its qubit by the bare index. -/
def line (op : Operation) : String :=
  match op with
  | barrier => op.name
  | rotate _ theta _ | rotatePair _ theta _ _ =>
    op.name ++ " " ++ thetaText theta ++ " " ++ qubitsText op.qubits
  | reset qubit => op.name ++ " " ++ toString qubit
  | measure _ => op.name ++ " " ++ qubitsText op.qubits ++ " => out[]"
  | measureInto _ result | measureReset _ result =>
    op.name ++ " " ++ qubitsText op.qubits ++ " => out[" ++ toString result ++ "]"
  | _ => op.name ++ " " ++ qubitsText op.qubits

end Operation

end QuantumIR
