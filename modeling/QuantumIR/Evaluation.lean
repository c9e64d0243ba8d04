import QuantumIR.ControlFlow
import QuantumIR.Eval.Machine

/-!
Evaluating a module from an entry point. Before the first instruction it is checked
that everything the entry point can come to call is either defined or in the catalog.
-/

namespace QuantumIR

namespace Module

/-- The function that a run starts from: the one of a given name, or else the marked one. -/
def resolveEntry (module : Module) (name : Option String) : Except EvalError Function :=
  match name with
  | some name =>
    match module.definition? name with
    | some function => .ok function
    | none => .error (.entryPointNotFound (.noBody name))
  | none =>
    match module.entryPoint?.filter fun function => !function.isDeclaration with
    | some function => .ok function
    | none => .error (.entryPointNotFound (.count module.entryPoints.length))

/-- The functions that can be called from a given one but are neither defined nor in
the catalog: those that are declared in the order of the text, then the others by name. -/
def unsupportedFrom (module : Module) (root : String) : List String :=
  let reached := module.callGraph.walk root
  let unknown := fun name => (Intrinsic.ofName? name).isNone
  let declared := (module.declarations.map Function.name).filter fun name =>
    name ∈ reached && unknown name
  let missing := reached.filter fun name => (module.function? name).isNone && unknown name
  declared ++ missing.mergeSort fun a b => decide (a ≤ b)

/-- A machine that is ready to run a module. -/
def prepare (module : Module) (entryPoint : Option String) (stream : Option (List Bool)) :
    Except EvalError Machine := do
  let entry ← module.resolveEntry entryPoint
  match module.unsupportedFrom entry.name with
  | [] => return .start entry stream
  | names => throw (.unsupported names)

/-- Runs a module and shows the run to an observer. Every outcome is false if there is no
stream. A run that never ends has no outcome. -/
def evaluate? (module : Module) (limits : Limits) (observer : Observer σ)
    (entryPoint : Option String) (stream : Option (List Bool)) (seen : σ) :
    Option (Except EvalError RunMetadata × σ) :=
  match module.prepare entryPoint stream with
  | .error error => some (.error error, seen)
  | .ok machine => machine.run module limits observer seen

/-- Runs a module as `evaluate?` does. A run that never ends is past every limit on steps. -/
def evaluate (module : Module) (limits : Limits) (observer : Observer σ)
    (entryPoint : Option String) (stream : Option (List Bool)) (seen : σ) :
    Except EvalError RunMetadata × σ :=
  (module.evaluate? limits observer entryPoint stream seen).getD
    (.error (.stepLimit UInt64.size), seen)

end Module

end QuantumIR
