import QuantumIR.Builder.Basic

/-!
Demonstration programs: a Bell pair, teleportation of one qubit, and the algorithm of
Bernstein and Vazirani, which finds a hidden bit pattern with one query.
-/

namespace QuantumIR

/-- The programs that can be generated. -/
inductive Demo where
  | bell
  | teleport
  | bernsteinVazirani
  deriving DecidableEq, Repr, Inhabited

/-- Why a program cannot be generated. -/
inductive DemoError where
  /-- Only the hidden pattern's program has parameters. -/
  | noParameters
  | qubitCount (count : Nat)
  | pattern (qubits hidden : Nat)
  | build (error : BuildError)
  deriving DecidableEq, Repr, Inhabited

def DemoError.message : DemoError → String
  | noParameters => "--qubits and --pattern only apply to bernstein-vazirani"
  | qubitCount count => "--qubits must be between 1 and 63, got " ++ toString count
  | pattern qubits hidden =>
    "--pattern must be below 2^" ++ toString qubits ++ ", got " ++ toString hidden
  | build error => error.message

namespace Demo

open Building

def all : List Demo := [bell, teleport, bernsteinVazirani]

/-- The name by which a program is chosen. -/
def name : Demo → String
  | bell => "bell"
  | teleport => "teleport"
  | bernsteinVazirani => "bernstein-vazirani"

def ofName? (name : String) : Option Demo :=
  all.find? fun demo => demo.name = name

/-- The operand of a static qubit or of a static result. -/
def index (n : Nat) : Value := .ofIndex n

def gate (gate : Gate) (qubit : Nat) : Building Unit :=
  perform (.single gate) [index qubit]

def cnot (control target : Nat) : Building Unit :=
  perform (.controlled .x) [index control, index target]

def measure (qubit result : Nat) : Building Unit :=
  perform .measureInto [index qubit, index result]

def reset (qubit : Nat) : Building Unit :=
  perform .reset [index qubit]

/-- Records the first results as an array, each under its name. -/
def recordResults (count : Nat) : Building Unit := do
  record .array (.int (Int64.ofNat count)) none
  (List.range count).forM fun r => record .result (index r) (some (ResultId.text ⟨r⟩))

/-- The module that a program's steps build. -/
def assemble (name : String) (qubits results : Nat) (body : Building Unit) :
    Except BuildError Module := do
  let builder ← Builder.create name qubits results
  let (outcome, builder) := (do body; ret : Building Unit).run builder
  outcome
  builder.finish

/-- Entangles two qubits and measures both. -/
def bellSteps : Building Unit := do
  gate .h 0
  cnot 0 1
  measure 0 0
  measure 1 1
  recordResults 2

/-- Measures a qubit into a result, and applies a gate to another one if the outcome is one. -/
def correct (qubit result : Nat) (correction : Gate) (target : Nat) : Building Unit := do
  measure qubit result
  reset qubit
  let _ ← ifResult (index result) (gate correction target) (return ())

/-- Teleports qubit 0 to qubit 1 with the help of qubit 2. -/
def teleportSteps : Building Unit := do
  gate .h 2
  cnot 2 1
  cnot 0 2
  gate .h 0
  correct 0 0 .z 1
  correct 2 1 .x 1

/-- Asks for the parity of the query qubits under a pattern, in which the least bit
belongs to the first qubit, and measures the pattern. The qubit after them is the target. -/
def hiddenPatternSteps (count pattern : Nat) : Building Unit := do
  let queries := List.range count
  gate .x count
  queries.forM (gate .h)
  gate .h count
  (queries.filter pattern.testBit).forM (cnot · count)
  queries.forM (gate .h)
  reset count
  queries.forM fun q => do
    measure q q
    reset q
  recordResults count

/-- The number of query qubits if none is given. -/
def defaultQubits : Nat := 8

/-- The hidden pattern if none is given. -/
def defaultPattern : Nat := 12

/-- The program that finds a hidden pattern. -/
def hiddenPattern (count pattern : Nat) : Except DemoError Module :=
  if count < 1 ∨ 63 < count then .error (.qubitCount count)
  else if Nat.pow 2 count ≤ pattern then .error (.pattern count pattern)
  else
    (assemble "bernstein_vazirani" (count + 1) count (hiddenPatternSteps count pattern)).mapError
      .build

/-- A program without parameters, which must not be given any. -/
def plain (qubits pattern : Option Nat) (module : Except BuildError Module) :
    Except DemoError Module :=
  if qubits.isSome || pattern.isSome then .error .noParameters else module.mapError .build

/-- The module of a program. -/
def build (demo : Demo) (qubits pattern : Option Nat) : Except DemoError Module :=
  match demo with
  | bell => plain qubits pattern (assemble "bell" 2 2 bellSteps)
  | teleport => plain qubits pattern (assemble "teleport" 3 2 teleportSteps)
  | bernsteinVazirani =>
    hiddenPattern (qubits.getD defaultQubits) (pattern.getD defaultPattern)

end Demo

end QuantumIR
