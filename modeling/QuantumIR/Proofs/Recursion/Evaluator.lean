import Mathlib
import QuantumIR.Evaluation

/-!
Evaluation by recursion. The body of a function is a loop over its instructions. A call of a defined
function runs the body of that function in a frame of its own, which holds the arguments and nothing
else, and the loop goes on with the value that comes back. No frame knows of another one.
-/

namespace QuantumIR

variable {σ α β : Type}

/-- A part of an evaluation beside an observer. It gives something, fails or never ends. What the
observer has seen stays if it fails. -/
abbrev Watched (σ : Type) := ExceptT EvalError (StateT σ Option)

namespace Watched

/-- Lets an observer see what an instruction hands on. -/
def handOn (observer : Observer σ) (operation : Option Operation) : Watched σ Unit :=
  modify fun seen => operation.elim seen (observer.apply · seen)

/-- One turn of a loop beside an observer. A turn that never ends is the last one. -/
def loopTurn (turn : α → Watched σ (α ⊕ β)) :
    α × σ → (α × σ) ⊕ Option (Except EvalError β × σ)
  | (a, seen) =>
    match (turn a).run seen with
    | none => .inr none
    | some (.error error, seen) => .inr (some (.error error, seen))
    | some (.ok (.inl next), seen) => .inl (next, seen)
    | some (.ok (.inr b), seen) => .inr (some (.ok b, seen))

/-- Repeats a part of an evaluation up to the first result. -/
def loop (turn : α → Watched σ (α ⊕ β)) (a : α) : Watched σ β :=
  ExceptT.mk fun seen => (iterate? (loopTurn turn) (a, seen)).join

end Watched

namespace Recursion

/-- What the next instruction of a body comes to. -/
inductive Action where
  /-- The body goes on. -/
  | goOn (operation : Option Operation) (frame : Frame) (state : RunState)
  /-- A defined function is called. The body goes on with what it returns. -/
  | call (function : Function) (args : List Datum) (result : Option String) (frame : Frame)
      (state : RunState)
  /-- The body ends. -/
  | giveBack (returned : Option Datum) (state : RunState)

variable (module : Module) (limits : Limits) (observer : Observer σ)

/-- Executes the next instruction of a body, which does not know where it returns to. -/
def act (frame : Frame) (state : RunState) : Except EvalError Action :=
  match frame.rest with
  | [] => .error (.operand (.openBlock frame.block.label frame.function.name))
  | instruction :: rest => do
    let state ← Machine.tick limits state
    let frame := { frame with rest, returnTo := none }
    match instruction with
    | .call result _ callee operands => do
      let args ← operands.mapM frame.operand
      match module.definition? callee, Intrinsic.ofName? callee with
      | some function, _ => return .call function args result frame state
      | none, some intrinsic => do
        let (effect, state) ← Run.perform module intrinsic args state
        return .goOn effect.operation (frame.bindResult result effect.value) state
      | none, none => throw (.unsupported [callee])
    | .ret operand => return .giveBack (← operand.mapM frame.operand) state
    | _ => return .goOn none (← Machine.executeLocal frame instruction) state

/-- What a call of a defined function gives: a value, if the function returns one, and the state
after it. -/
abbrev Calls (σ : Type) := Function → List Datum → RunState → Watched σ (Option Datum × RunState)

/-- Executes the next instruction of a body before an observer, up to the return from a function
that it calls. -/
def proceed (calls : Calls σ) : Frame × RunState →
    Watched σ ((Frame × RunState) ⊕ (Option Datum × RunState))
  | (frame, state) => do
    match ← ofExcept (act module limits frame state) with
    | .goOn operation frame state => do
      Watched.handOn observer operation
      return .inl (frame, state)
    | .call function args result frame state => do
      let (returned, state) ← calls function args state
      return .inl (frame.bindResult result returned, state)
    | .giveBack returned state => return .inr (returned, state)

/-- Calls functions by running their bodies, at most so many of them one within the other. -/
def callsWithin : Nat → Calls σ
  | 0, _, _, _ => throw (.callDepth limits.depth)
  | levels + 1, function, args, state =>
    Watched.loop (proceed module limits observer (callsWithin levels))
      (.enter function args none, state)

/-- Runs what is left of a body, with at most so many calls in it one within the other. -/
def body (levels : Nat) (frame : Frame) (state : RunState) : Watched σ (Option Datum × RunState) :=
  Watched.loop (proceed module limits observer (callsWithin module limits observer levels))
    (frame, state)

end Recursion

/-- Evaluates a module by running the body of its entry point. -/
def Module.evaluateRecursively (module : Module) (limits : Limits) (observer : Observer σ)
    (entryPoint : Option String) (stream : Option (List Bool)) : Watched σ RunMetadata := do
  let entry ← ofExcept (module.resolveEntry entryPoint)
  match module.unsupportedFrom entry.name with
  | [] => do
    let (_, state) ← Recursion.body module limits observer (limits.depth - 1) (.enter entry [] none)
      (.start entry stream)
    modify (observer.finish state.metadata)
    return state.metadata
  | names => throw (.unsupported names)

end QuantumIR
