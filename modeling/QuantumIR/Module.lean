import QuantumIR.Instruction
import QuantumIR.Text.Numeral

/-!
Modules: opaque type names, global strings and functions. A function without
blocks is a declaration, one with blocks a definition.
-/

namespace QuantumIR

/-- A function attribute. -/
inductive Attribute where
  /-- A quoted key. -/
  | flag (key : String)
  /-- A quoted key with a quoted value. -/
  | keyValue (key value : String)
  /-- A bare word, kept as it is written. -/
  | keyword (word : String)
  deriving DecidableEq, Repr, Inhabited

namespace Attribute

def key : Attribute → String
  | flag key | keyValue key _ | keyword key => key

def value? : Attribute → Option String
  | keyValue _ value => some value
  | _ => none

def text : Attribute → String
  | flag key => "\"" ++ Text.escapeText key ++ "\""
  | keyValue key value =>
    "\"" ++ Text.escapeText key ++ "\"=\"" ++ Text.escapeText value ++ "\""
  | keyword word => word

end Attribute

/-- A parameter. Those of a declaration need no name. -/
structure Param where
  ty : Ty
  name : Option String
  deriving DecidableEq, Repr, Inhabited

/-- A labelled list of instructions. -/
structure Block where
  label : String
  instructions : List Instruction
  deriving DecidableEq, Repr, Inhabited

/-- The last instruction of a block, if it is one that ends blocks. -/
def Block.terminator? (block : Block) : Option Instruction :=
  block.instructions.getLast?.filter Instruction.isTerminator

/-- A function. -/
structure Function where
  name : String
  ret : Ty
  params : List Param
  blocks : List Block
  attributes : List Attribute
  deriving DecidableEq, Repr, Inhabited

/-- The keys that mark an entry point. -/
def entryPointKeys : List String := ["entry_point", "EntryPoint"]

/-- The keys of the number of qubits that an entry point needs. -/
def qubitCountKeys : List String :=
  ["num_required_qubits", "required_num_qubits", "requiredQubits"]

/-- The keys of the number of results that an entry point needs. -/
def resultCountKeys : List String :=
  ["num_required_results", "required_num_results", "requiredResults"]

namespace Function

/-- A function without a body and without attributes. -/
def declaration (name : String) (params : List Ty) (ret : Ty) : Function :=
  { name, ret, params := params.map (⟨·, none⟩), blocks := [], attributes := [] }

def isDeclaration (function : Function) : Bool :=
  function.blocks.isEmpty

/-- The first attribute with a given key. -/
def attribute? (function : Function) (key : String) : Option Attribute :=
  function.attributes.find? fun attr => attr.key = key

/-- The attribute of the first of several keys that the function has. -/
def firstAttribute? (function : Function) (keys : List String) : Option Attribute :=
  keys.findSome? function.attribute?

def isEntryPoint (function : Function) : Bool :=
  entryPointKeys.any fun key => (function.attribute? key).isSome

/-- The count under the first of several keys, if it has a value that is a count. -/
def count? (function : Function) (keys : List String) : Option Nat := do
  let attr ← function.firstAttribute? keys
  let value ← attr.value?
  Text.count? value.toList

/-- The number of qubits that an entry point says it needs. -/
def qubitCount? (function : Function) : Option Nat :=
  function.count? qubitCountKeys

/-- The number of results that an entry point says it needs. -/
def resultCount? (function : Function) : Option Nat :=
  function.count? resultCountKeys

/-- The first block with a given label. -/
def block? (function : Function) (label : String) : Option Block :=
  function.blocks.find? fun block => block.label = label

/-- The place of the first block with a given label. -/
def blockIndex? (function : Function) (label : String) : Option Nat :=
  function.blocks.findIdx? fun block => block.label = label

/-- All instructions in the order of the text. -/
def instructions (function : Function) : List Instruction :=
  function.blocks.flatMap Block.instructions

/-- Replaces every value that an instruction of the function reads. -/
def mapValues (f : Value → Value) (function : Function) : Function :=
  { function with
    blocks := function.blocks.map fun block =>
      { block with instructions := block.instructions.map (Instruction.mapValues f) } }

end Function

/-- A constant string of bytes, which output labels refer to. -/
structure GlobalString where
  name : String
  bytes : List UInt8
  deriving DecidableEq, Repr, Inhabited

/-- The bytes up to the first zero byte, read as text. -/
def GlobalString.text (global : GlobalString) : String :=
  String.ofList (Text.decodeLossy (global.bytes.takeWhile (· ≠ 0)))

/-- A module. -/
structure Module where
  name : String
  source : Option String
  opaqueTypes : List String
  globals : List GlobalString
  functions : List Function
  deriving DecidableEq, Repr, Inhabited

namespace Module

/-- A module that holds nothing yet. -/
def empty (name : String) : Module :=
  { name, source := none, opaqueTypes := [], globals := [], functions := [] }

/-- The first function of a name. -/
def function? (module : Module) (name : String) : Option Function :=
  module.functions.find? fun function => function.name = name

/-- The first function of a name, if it has a body. -/
def definition? (module : Module) (name : String) : Option Function :=
  (module.function? name).filter fun function => !function.isDeclaration

/-- The first global string of a name. -/
def global? (module : Module) (name : String) : Option GlobalString :=
  module.globals.find? fun global => global.name = name

/-- The functions that are marked as entry points. -/
def entryPoints (module : Module) : List Function :=
  module.functions.filter Function.isEntryPoint

/-- The entry point, if there is exactly one. -/
def entryPoint? (module : Module) : Option Function :=
  match module.entryPoints with
  | [only] => some only
  | _ => none

def declarations (module : Module) : List Function :=
  module.functions.filter Function.isDeclaration

def definitions (module : Module) : List Function :=
  module.functions.filter fun function => !function.isDeclaration

/-- Replaces every value that an instruction of the module reads. -/
def mapValues (f : Value → Value) (module : Module) : Module :=
  { module with functions := module.functions.map (Function.mapValues f) }

/-- Whether an instruction of the module reads bits that stand for no number. -/
def readsNaN (module : Module) : Bool :=
  module.functions.any fun function => function.instructions.any fun instruction =>
    instruction.operands.any fun operand => operand.2.isNaN

/-- Equality that compares floating-point constants as numbers: either zero equals
the other, and bits that stand for no number equal nothing. -/
def sameAs (module other : Module) : Bool :=
  !module.readsNaN &&
    module.mapValues (Value.mapDouble Double.unsignedZero) =
      other.mapValues (Value.mapDouble Double.unsignedZero)

end Module

end QuantumIR
