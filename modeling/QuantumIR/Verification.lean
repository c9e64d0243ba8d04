import QuantumIR.Eval.Error
import QuantumIR.Intrinsic
import QuantumIR.Module

/-!
The rules that a module has to keep before it is run. Verification reports the
first violation: names and entry point first, then each function in turn, and last
the static indices in the entry point.
-/

namespace QuantumIR

/-- A violated rule, with the names that tell where. -/
inductive Violation where
  | noEntryPoint
  | severalEntryPoints (names : List String)
  | entryPointWithoutBody (function : String)
  | missingCount (function key : String)
  | invalidCount (function key value : String)
  | missingTerminator (function block : String)
  | misplacedTerminator (function block : String)
  | repeatedLabel (function label : String)
  | unknownTarget (function block target : String)
  | unknownCallee (function callee : String)
  | argumentCount (function callee : String) (expected found : Nat)
  | repeatedAssignment (function name : String)
  | repeatedFunction (name : String)
  | width (function : String) (width : UInt32)
  | indexOutOfRange (function : String) (register : Register) (index limit : Nat)
  deriving DecidableEq, Repr, Inhabited

/-- The rules by the names they are reported under. -/
inductive Rule where
  | entryPoint | requiredAttributes | terminator | uniqueLabels | branchTarget | callTarget
  | singleAssignment | uniqueFunctions | integerWidth | operandRange
  deriving DecidableEq, Repr, Inhabited

def Rule.text : Rule → String
  | entryPoint => "entry-point"
  | requiredAttributes => "required-attributes"
  | terminator => "terminator"
  | uniqueLabels => "unique-labels"
  | branchTarget => "branch-target"
  | callTarget => "call-target"
  | singleAssignment => "single-assignment"
  | uniqueFunctions => "unique-functions"
  | integerWidth => "integer-width"
  | operandRange => "operand-range"

namespace Violation

def rule : Violation → Rule
  | noEntryPoint | severalEntryPoints _ | entryPointWithoutBody _ => .entryPoint
  | missingCount .. | invalidCount .. => .requiredAttributes
  | missingTerminator .. | misplacedTerminator .. => .terminator
  | repeatedLabel .. => .uniqueLabels
  | unknownTarget .. => .branchTarget
  | unknownCallee .. | argumentCount .. => .callTarget
  | repeatedAssignment .. => .singleAssignment
  | repeatedFunction _ => .uniqueFunctions
  | width .. => .integerWidth
  | indexOutOfRange .. => .operandRange

def message : Violation → String
  | noEntryPoint => "no function is marked as entry point"
  | severalEntryPoints names => "multiple entry points: " ++ ", ".intercalate names
  | entryPointWithoutBody function =>
    "entry point " ++ quoteName function ++ " is a declaration without a body"
  | missingCount function key =>
    "entry point " ++ quoteName function ++ " is missing the " ++ quoteName key ++ " attribute"
  | invalidCount function key value =>
    "entry point " ++ quoteName function ++ " has invalid " ++ quoteName key ++ " value " ++
      quoteName value
  | missingTerminator function block =>
    "block " ++ quoteName block ++ " in " ++ quoteName function ++ " has no terminator"
  | misplacedTerminator function block =>
    "block " ++ quoteName block ++ " in " ++ quoteName function ++
      " has a terminator before its end"
  | repeatedLabel function label =>
    "label " ++ quoteName label ++ " defined more than once in " ++ quoteName function
  | unknownTarget function block target =>
    "branch in " ++ quoteName function ++ " block " ++ quoteName block ++
      " targets unknown block " ++ quoteName target
  | unknownCallee function callee =>
    quoteName function ++ " calls undeclared function " ++ quoteName callee
  | argumentCount function callee expected found =>
    quoteName function ++ " calls " ++ quoteName callee ++ " with " ++ toString found ++
      " arguments, expected " ++ toString expected
  | repeatedAssignment function name =>
    quoteName ("%" ++ name) ++ " is assigned more than once in " ++ quoteName function
  | repeatedFunction name => "function " ++ quoteName name ++ " is defined more than once"
  | width function bits =>
    quoteName function ++ " uses unsupported integer width i" ++ toString bits.toNat
  | indexOutOfRange function register index limit =>
    register.text ++ " " ++ toString index ++ " used in " ++ quoteName function ++
      " is out of range (declared " ++ toString limit ++ ")"

end Violation

/-- The types that an instruction writes out or implies, in the order they are checked. -/
def Instruction.types (instruction : Instruction) : List Ty :=
  (match instruction with
    | .call _ ty _ _ => [ty]
    | .binary _ _ width _ _ | .compare _ _ width _ _ => [.int width]
    | .convert _ _ source _ target => [.int source, .int target]
    | .select _ _ ty _ _ => [ty]
    | .branch _ | .branchIf .. | .ret _ => []) ++
    instruction.operands.filterMap Prod.fst

namespace Function

/-- The types of a function's value, parameters and instructions. -/
def types (function : Function) : List Ty :=
  function.ret :: function.params.map Param.ty ++
    function.instructions.flatMap Instruction.types

/-- The names that a function binds: those of its parameters and of its instructions. -/
def boundNames (function : Function) : List String :=
  function.params.filterMap Param.name ++ function.instructions.filterMap Instruction.result?

end Function

namespace Verification

/-- The first element that has occurred before, counting `seen` as having occurred. -/
def firstRepeat? [DecidableEq α] (seen : List α) : List α → Option α
  | [] => none
  | a :: rest => if a ∈ seen then some a else firstRepeat? (a :: seen) rest

/-- Reports a violation if there is one. -/
def report : Option Violation → Except Violation Unit
  | some violation => .error violation
  | none => .ok ()

def checkUniqueFunctions (module : Module) : Except Violation Unit :=
  report ((firstRepeat? [] (module.functions.map Function.name)).map .repeatedFunction)

/-- The one entry point, which has to have a body. -/
def checkEntryPoint (module : Module) : Except Violation Function :=
  match module.entryPoints with
  | [] => .error .noEntryPoint
  | [entry] => if entry.isDeclaration then .error (.entryPointWithoutBody entry.name) else .ok entry
  | several => .error (.severalEntryPoints (several.map Function.name))

/-- The count that the entry point gives under the first of several keys that it has.
A missing one is reported under the first key of all. -/
def checkCount (entry : Function) (keys : List String) : Except Violation Nat :=
  match entry.firstAttribute? keys with
  | none => .error (.missingCount entry.name (keys.headD ""))
  | some attr =>
    let value := attr.value?.getD ""
    match Text.count? value.toList with
    | some count => .ok count
    | none => .error (.invalidCount entry.name attr.key value)

/-- The width of an integer type that is not computed with. -/
def unsupportedWidth? (ty : Ty) : Option UInt32 :=
  ty.intWidth?.filter fun width => width = 0 || 64 < width

def checkWidths (function : Function) : Except Violation Unit :=
  report ((function.types.findSome? unsupportedWidth?).map (.width function.name))

/-- A block ends with its only terminator, which goes on to blocks of the function. -/
def checkBlock (function : Function) (block : Block) : Except Violation Unit :=
  match block.terminator? with
  | none => .error (.missingTerminator function.name block.label)
  | some terminator =>
    if block.instructions.dropLast.any Instruction.isTerminator then
      .error (.misplacedTerminator function.name block.label)
    else
      report ((terminator.successors.find? fun target => (function.block? target).isNone).map
        (.unknownTarget function.name block.label))

def checkLabels (function : Function) : Except Violation Unit :=
  report ((firstRepeat? [] (function.blocks.map Block.label)).map (.repeatedLabel function.name))

def checkAssignments (function : Function) : Except Violation Unit :=
  report ((firstRepeat? [] function.boundNames).map (.repeatedAssignment function.name))

/-- A call calls a function of the module with as many arguments as it has parameters. -/
def checkCall (module : Module) (function : Function) : Instruction → Except Violation Unit
  | .call _ _ callee args =>
    match module.function? callee with
    | none => .error (.unknownCallee function.name callee)
    | some target =>
      if target.params.length = args.length then .ok ()
      else .error (.argumentCount function.name callee target.params.length args.length)
  | _ => .ok ()

def checkFunction (module : Module) (function : Function) : Except Violation Unit := do
  checkWidths function
  if !function.isDeclaration then
    checkLabels function
    function.blocks.forM (checkBlock function)
    checkAssignments function
    function.instructions.forM (checkCall module function)

/-- The register that a type's pointers index. -/
def register? (ty : Ty) : Option Register :=
  if ty.isQubit then some .qubit else if ty.isResult then some .result else none

/-- An argument of the entry point, with the type that the catalog gives it if it does. -/
def checkIndex (entry : Function) (qubits results : Nat) (catalogTy : Option Ty) (arg : Operand) :
    Except Violation Unit :=
  match arg.value.index?, register? (catalogTy.getD arg.ty) with
  | some index, some register =>
    let limit := match register with
      | .qubit => qubits
      | .result => results
    if index < limit then .ok ()
    else .error (.indexOutOfRange entry.name register index limit)
  | _, _ => .ok ()

/-- The static indices in a call by the entry point. -/
def checkIndices (entry : Function) (qubits results : Nat) : Instruction → Except Violation Unit
  | .call _ _ callee args =>
    let params := ((Intrinsic.ofName? callee).map fun i => i.signature.params).getD []
    args.zipIdx.forM fun (arg, i) => checkIndex entry qubits results params[i]? arg
  | _ => .ok ()

end Verification

open Verification in
/-- Checks all rules and reports the first violation. -/
def Module.verify (module : Module) : Except Violation Unit := do
  checkUniqueFunctions module
  let entry ← checkEntryPoint module
  let qubits ← checkCount entry qubitCountKeys
  let results ← checkCount entry resultCountKeys
  module.functions.forM (checkFunction module)
  entry.instructions.forM (checkIndices entry qubits results)

end QuantumIR
