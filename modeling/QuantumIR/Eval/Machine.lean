import QuantumIR.Eval.Frame
import QuantumIR.Eval.Perform
import QuantumIR.Iteration

/-!
The machine that runs a program: a stack of frames and the state beside them. One
step executes one instruction and hands on at most one operation. The observer of a
run sees the operations in their order and, if the run succeeds, what is known at its end.
-/

namespace QuantumIR

/-- How long and how deep a run may get. -/
structure Limits where
  /-- How many instructions may be executed, if that is limited. -/
  steps : Option Nat
  /-- How many frames there may be at one time. -/
  depth : Nat
  deriving DecidableEq, Repr, Inhabited

/-- No limit on steps, and 1024 frames. -/
def Limits.standard : Limits := ⟨none, 1024⟩

/-- A program in the middle of its run. The frame that executes comes first. -/
structure Machine where
  frames : List Frame
  state : RunState
  deriving DecidableEq, Repr, Inhabited

/-- What watches a run. -/
structure Observer (σ : Type) where
  apply : Operation → σ → σ
  finish : RunMetadata → σ → σ

/-- Collects the operations of a run. -/
def Observer.trace : Observer (Array Operation) where
  apply operation trace := trace.push operation
  finish _ trace := trace

namespace Machine

/-- A machine before the first instruction of an entry point. -/
def start (entry : Function) (stream : Option (List Bool)) : Machine :=
  ⟨[.enter entry [] none], .start entry stream⟩

/-- Counts one more instruction. -/
def tick (limits : Limits) (state : RunState) : Except EvalError RunState :=
  let steps := state.steps + 1
  match limits.steps with
  | some limit => if limit < steps then .error (.stepLimit limit) else .ok { state with steps }
  | none => .ok { state with steps }

/-- Calls a function that is defined in the module or in the catalog. -/
def call (module : Module) (limits : Limits) (frame : Frame) (callers : List Frame)
    (state : RunState) (result : Option String) (callee : String) (args : List Datum) :
    Except EvalError (Option Operation × Machine) :=
  match module.definition? callee, Intrinsic.ofName? callee with
  | some function, _ =>
    if callers.length + 1 < limits.depth then
      .ok (none, ⟨.enter function args result :: frame :: callers, state⟩)
    else .error (.callDepth limits.depth)
  | none, some intrinsic => do
    let (effect, state) ← Run.perform module intrinsic args state
    return (effect.operation, ⟨frame.bindResult result effect.value :: callers, state⟩)
  | none, none => .error (.unsupported [callee])

/-- Returns from a function to the one that called it. -/
def leave (callers : List Frame) (returnTo : Option String) (datum : Option Datum) : List Frame :=
  match callers with
  | [] => []
  | caller :: others => caller.bindResult returnTo datum :: others

/-- What an instruction that stays in its function makes of the frame. -/
def executeLocal (frame : Frame) : Instruction → Except EvalError Frame
  | .binary result op width lhs rhs => do
    let a ← frame.word width lhs
    let b ← frame.word width rhs
    return frame.bind result (.int width (← Word.binary op width a b))
  | .compare result predicate width lhs rhs => do
    let a ← frame.word width lhs
    let b ← frame.word width rhs
    return frame.bind result (.bool (Word.compare predicate width a b))
  | .convert result conversion source value target => do
    let bits ← frame.word source value
    return frame.bind result (.int target (← Word.convert conversion source bits target))
  | .select result condition ty onTrue onFalse => do
    let chosen := if ← frame.condition condition then onTrue else onFalse
    return frame.bind result (← frame.datum ty chosen)
  | .branch target => frame.jump target
  | .branchIf condition onTrue onFalse => do
    frame.jump (if ← frame.condition condition then onTrue else onFalse)
  | .call .. | .ret _ => .ok frame

/-- Executes an instruction. -/
def execute (module : Module) (limits : Limits) (frame : Frame) (callers : List Frame)
    (state : RunState) (instruction : Instruction) :
    Except EvalError (Option Operation × Machine) :=
  match instruction with
  | .call result _ callee operands => do
    let args ← operands.mapM frame.operand
    call module limits frame callers state result callee args
  | .ret operand => do
    let datum ← operand.mapM frame.operand
    return (none, ⟨leave callers frame.returnTo datum, state⟩)
  | _ => do
    let frame ← executeLocal frame instruction
    return (none, ⟨frame :: callers, state⟩)

/-- Executes the next instruction of the first frame. -/
def step (module : Module) (limits : Limits) (frame : Frame) (callers : List Frame)
    (state : RunState) : Except EvalError (Option Operation × Machine) :=
  match frame.rest with
  | [] => .error (.operand (.openBlock frame.block.label frame.function.name))
  | instruction :: rest => do
    let state ← tick limits state
    execute module limits { frame with rest } callers state instruction

/-- Lets an observer see what a machine does next: an instruction, the return from the entry
point or a failure. -/
def turn (module : Module) (limits : Limits) (observer : Observer σ) :
    Machine × σ → (Machine × σ) ⊕ (Except EvalError RunMetadata × σ)
  | (⟨[], state⟩, seen) => .inr (.ok state.metadata, observer.finish state.metadata seen)
  | (⟨frame :: callers, state⟩, seen) =>
    match step module limits frame callers state with
    | .error error => .inr (.error error, seen)
    | .ok (operation, machine) => .inl (machine, operation.elim seen (observer.apply · seen))

/-- Lets an observer see what a machine does up to the return from the entry point or the
first failure. A machine that goes on for ever has no outcome. -/
def run (module : Module) (limits : Limits) (observer : Observer σ) (machine : Machine)
    (seen : σ) : Option (Except EvalError RunMetadata × σ) :=
  iterate? (turn module limits observer) (machine, seen)

end Machine

end QuantumIR
