import QuantumIR.Bindings
import QuantumIR.Eval.Datum
import QuantumIR.Module

/-!
A frame is one function in the middle of its execution: what is left of the
current block and what the registers hold.
-/

namespace QuantumIR

/-- One function in the middle of its execution. -/
structure Frame where
  function : Function
  /-- The current block. -/
  block : Block
  /-- What is left of the current block. -/
  rest : List Instruction
  registers : Bindings String Datum
  /-- The caller's register for the value that the function returns. -/
  returnTo : Option String
  deriving DecidableEq, Repr, Inhabited

namespace Frame

/-- Binds a register. -/
def bind (name : String) (datum : Datum) (frame : Frame) : Frame :=
  { frame with registers := frame.registers.set name datum }

/-- Binds a register if there is both a name and a value. -/
def bindResult (name : Option String) (datum : Option Datum) (frame : Frame) : Frame :=
  match name, datum with
  | some name, some datum => frame.bind name datum
  | _, _ => frame

/-- The parameters that have a name, with the arguments in their places. -/
def arguments (function : Function) (args : List Datum) : List (String × Datum) :=
  (function.params.zip args).filterMap fun (param, arg) => param.name.map (·, arg)

/-- A function at its start. -/
def enter (function : Function) (args : List Datum) (returnTo : Option String) : Frame :=
  let block := function.blocks.headD ⟨"", []⟩
  { function, block, rest := block.instructions, returnTo
    registers := (arguments function args).foldl (fun registers (name, arg) =>
      registers.set name arg) [] }

/-- What a register holds. -/
def read (frame : Frame) (name : String) : Except EvalError Datum :=
  match frame.registers.get? name with
  | some datum => .ok datum
  | none => .error (.unbound frame.function.name name)

/-- What a value stands for where its type is `ty`. -/
def datum (frame : Frame) (ty : Ty) : Value → Except EvalError Datum
  | .reg name => frame.read name
  | .int value => Datum.ofConstant ty value
  | .double value => .ok (.double value)
  | .null => .ok (.pointer (.index 0))
  | .address index =>
    if 0 ≤ index.toInt then .ok (.pointer (.index index.toInt.toNat))
    else .error (.operand (.negativeIndex index))
  | .global name | .firstByte name _ => .ok (.pointer (.global name))

/-- What an operand stands for. -/
def operand (frame : Frame) (operand : Operand) : Except EvalError Datum :=
  frame.datum operand.ty operand.value

/-- The word of an integer operand. -/
def word (frame : Frame) (width : UInt32) (value : Value) : Except EvalError Nat := do
  (← frame.datum (.int width) value).word width

/-- A condition of one bit. -/
def condition (frame : Frame) (value : Value) : Except EvalError Bool := do
  (← frame.datum .bool value).truth

/-- Goes on at a block. -/
def jump (frame : Frame) (label : String) : Except EvalError Frame :=
  match frame.function.block? label with
  | some block => .ok { frame with block, rest := block.instructions }
  | none => .error (.operand (.unknownBlock label frame.function.name))

end Frame

end QuantumIR
