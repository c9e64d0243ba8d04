import QuantumIR.Builder.Basic

/-!
Building steps as data, and what a list of them answers. A step that fails ends the
body of a branch that it stands in, but not the list as a whole.
-/

namespace QuantumIR

/-- One building step. -/
inductive BuildStep where
  /-- Calls a function of the catalog that returns nothing. -/
  | perform (callee : Intrinsic) (args : List Value)
  /-- Calls a function of the catalog that returns a value. -/
  | evaluate (callee : Intrinsic) (args : List Value)
  | rotatePair (callee : Intrinsic) (theta : Double) (a b : Value)
  | record (kind : RecordKind) (value : Value) (label : Option String)
  | addString (text : String)
  | binary (op : BinaryOp) (width : UInt32) (lhs rhs : Value)
  | compare (predicate : Predicate) (width : UInt32) (lhs rhs : Value)
  | convert (conversion : Conversion) (source : UInt32) (value : Value) (target : UInt32)
  | select (condition : Value) (ty : Ty) (onTrue onFalse : Value)
  | appendBlock (label : String)
  | position (label : String)
  | branch (target : String)
  | branchIf (condition : Value) (onTrue onFalse : String)
  | ret
  | call (name : String) (ret : Ty) (args : List Operand)
  /-- Calls a function of the catalog, whatever it returns. -/
  | intrinsic (callee : Intrinsic) (args : List Value)
  | declare (name : String) (signature : Signature)
  | qubit (index : Nat)
  | result (index : Nat)
  | qubits
  | results
  | text
  | ifElse (condition : Value) (onTrue onFalse : List BuildStep)
  | ifResult (result : Value) (onOne onZero : List BuildStep)
  deriving Repr, Inhabited

/-- What a building step answers. -/
inductive Reply where
  | done
  | value (value : Value)
  | label (label : String)
  | operands (operands : List Operand)
  | operand (operand : Operand)
  | text (text : String)
  /-- The answers of two bodies, each with the label of the block that was then current. -/
  | bodies (onTrue onFalse : List (Reply × String))
  deriving Repr, Inhabited

namespace Reply

/-- The answer of a step that may give a value. -/
def ofValue? (value : Option Value) : Reply :=
  (value.map Reply.value).getD .done

end Reply

namespace BuildStep

open Building

mutual

/-- Does one building step. -/
def run : BuildStep → Building Reply
  | .perform callee args => do
    Building.perform callee args
    return .done
  | .evaluate callee args => return .value (← Building.evaluate callee args)
  | .rotatePair callee theta a b => do
    Building.rotatePair callee theta a b
    return .done
  | .record kind value label => do
    Building.record kind value label
    return .done
  | .addString string => return .value (← Building.addString string)
  | .binary op width lhs rhs => return .value (← Building.binary op width lhs rhs)
  | .compare predicate width lhs rhs => return .value (← Building.compare predicate width lhs rhs)
  | .convert conversion source value target =>
    return .value (← Building.convert conversion source value target)
  | .select condition ty onTrue onFalse =>
    return .value (← Building.select condition ty onTrue onFalse)
  | .appendBlock label => return .label (← Building.appendBlock label)
  | .position label => do
    Building.position label
    return .done
  | .branch target => do
    Building.branch target
    return .done
  | .branchIf condition onTrue onFalse => do
    Building.branchIf condition onTrue onFalse
    return .done
  | .ret => do
    Building.ret
    return .done
  | .call name ty args => return .ofValue? (← Building.call name ty args)
  | .intrinsic callee args => return .ofValue? (← Building.intrinsic callee args)
  | .declare name signature => do
    Building.declare name signature
    return .done
  | .qubit index => return .operand (← check (Builder.qubit · index))
  | .result index => return .operand (← check (Builder.result · index))
  | .qubits => return .operands (← get).qubits
  | .results => return .operands (← get).results
  | .text => return .text (← check Builder.text)
  | .ifElse condition onTrue onFalse => do
    let (a, b) ← Building.ifElse condition (runBody onTrue) (runBody onFalse)
    return .bodies a b
  | .ifResult operand onOne onZero => do
    let (a, b) ← Building.ifResult operand (runBody onOne) (runBody onZero)
    return .bodies a b

/-- Does building steps up to the first one that fails. -/
def runBody : List BuildStep → Building (List (Reply × String))
  | [] => return []
  | step :: steps => do
    let reply ← run step
    let block := (← get).current
    return (reply, block) :: (← runBody steps)

end

/-- Does all building steps of a list, also those after one that fails. Each answer comes
with the label of the block that was then current. -/
def runAll : List BuildStep → StateM Builder (List (Except BuildError Reply × String))
  | [] => return []
  | step :: steps => do
    let reply ← (run step).run
    let block := (← get).current
    return (reply, block) :: (← runAll steps)

end BuildStep

end QuantumIR
