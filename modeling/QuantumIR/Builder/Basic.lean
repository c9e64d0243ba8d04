import QuantumIR.Bindings
import QuantumIR.Builder.Error
import QuantumIR.Canonical

/-!
Building a module with one entry function, step by step. Instructions are added at
the end of the current block; once that block is terminated, another one has to be
made current. A step that fails keeps what it did before it failed.
-/

namespace QuantumIR

/-- A module under construction. -/
structure Builder where
  name : String
  qubitCount : Nat
  resultCount : Nat
  /-- The blocks of the entry function. Each has a label of its own. -/
  blocks : List Block
  /-- The label of the current block. -/
  current : String
  declarations : List Function
  globals : List GlobalString
  /-- The number of the next unnamed value. -/
  nextValue : Nat
  deriving DecidableEq, Repr, Inhabited

/-- A building step. -/
abbrev Building (α : Type) := ExceptT BuildError (StateM Builder) α

namespace Builder

/-- The name of the entry function. -/
def entryName : String := "main"

/-- The label of the first block. -/
def entryLabel : String := "entry"

/-- An entry function with one open block. The counts must not be negative. -/
def create (name : String) (qubits results : Int) : Except BuildError Builder :=
  if qubits < 0 then .error (.negativeCount .qubit qubits)
  else if results < 0 then .error (.negativeCount .result results)
  else
    .ok { name, qubitCount := qubits.toNat, resultCount := results.toNat
          blocks := [⟨entryLabel, []⟩], current := entryLabel, declarations := []
          globals := [], nextValue := 0 }

/-- The block of a label. -/
def block? (builder : Builder) (label : String) : Option Block :=
  builder.blocks.find? fun block => block.label = label

/-- Whether the current block has its terminator already. -/
def isTerminated (builder : Builder) : Bool :=
  ((builder.block? builder.current).bind Block.terminator?).isSome

/-- How many qubits or results there are. -/
def limit (builder : Builder) : Register → Nat
  | .qubit => builder.qubitCount
  | .result => builder.resultCount

/-- Checks an index into a register. -/
def checkIndex (builder : Builder) (register : Register) (index : Nat) : Except BuildError Unit :=
  if index < builder.limit register then .ok ()
  else .error (.indexOutOfRange register index (builder.limit register))

/-- Checks an operand that is a static qubit or a static result. -/
def checkOperand (builder : Builder) (operand : Operand) : Except BuildError Unit :=
  match operand.value.index? with
  | none => .ok ()
  | some index =>
    if operand.ty.isQubit then builder.checkIndex .qubit index
    else if operand.ty.isResult then builder.checkIndex .result index
    else .ok ()

/-- The operand of a qubit. -/
def qubit (builder : Builder) (index : Nat) : Except BuildError Operand := do
  builder.checkIndex .qubit index
  return .qubit index

/-- The operand of a result. -/
def result (builder : Builder) (index : Nat) : Except BuildError Operand := do
  builder.checkIndex .result index
  return .result index

/-- The operands of all qubits. -/
def qubits (builder : Builder) : List Operand :=
  (List.range builder.qubitCount).map Operand.qubit

/-- The operands of all results. -/
def results (builder : Builder) : List Operand :=
  (List.range builder.resultCount).map Operand.result

/-- The labels to try for a new block: the wanted one, then the wanted one with a number. -/
def candidate (label : String) (attempt : Nat) : String :=
  if attempt = 0 then label else label ++ toString attempt

/-- The first label to try that no block has. Of one more label than there are blocks, one is
free. -/
def freeLabel (builder : Builder) (label : String) : String :=
  let attempts := (List.range (builder.blocks.length + 1)).map (candidate label)
  (attempts.find? fun name => (builder.block? name).isNone).getD label

/-- New names for values: their numbers in the order of the blocks. -/
def numbering (blocks : List Block) : Bindings String String :=
  (blocks.flatMap fun block => block.instructions.filterMap Instruction.result?).zipIdx.map
    fun (name, number) => (name, toString number)

/-- A new name, or the old one if there is none. -/
def rename (names : Bindings String String) (name : String) : String :=
  (names.get? name).getD name

/-- Renames a value if it is a register. -/
def renameValue (names : Bindings String String) : Value → Value
  | .reg name => .reg (rename names name)
  | value => value

/-- Numbers the values of blocks in their order. -/
def renumber (blocks : List Block) : List Block :=
  let names := numbering blocks
  blocks.map fun block =>
    { block with instructions := block.instructions.map fun instruction =>
        (instruction.mapResult (rename names)).mapValues (renameValue names) }

/-- The attributes of the entry function. -/
def entryAttributes (builder : Builder) : List Attribute :=
  [.flag "entry_point",
   .keyValue "num_required_qubits" (toString builder.qubitCount),
   .keyValue "num_required_results" (toString builder.resultCount),
   .flag "output_labeling_schema",
   .keyValue "qir_profiles" "custom"]

/-- The finished module, with the entry function before the declarations. All blocks
have to be terminated. -/
def finish (builder : Builder) : Except BuildError Module :=
  match builder.blocks.find? fun block => block.terminator?.isNone with
  | some block => .error (.unterminated block.label)
  | none =>
    let entry : Function :=
      { name := entryName, ret := .void, params := [], blocks := renumber builder.blocks
        attributes := builder.entryAttributes }
    .ok { name := builder.name, source := some builder.name, opaqueTypes := ["Qubit", "Result"]
          globals := builder.globals, functions := entry :: builder.declarations }

/-- The text of the module as it would be if it were finished now. -/
def text (builder : Builder) : Except BuildError String :=
  builder.finish.map Module.text

end Builder

namespace Building

/-- Turns a failure into a failure of the step. -/
def ofExcept (result : Except BuildError α) : Building α :=
  match result with
  | .ok a => return a
  | .error error => throw error

/-- A check of what was built. -/
def check (test : Builder → Except BuildError α) : Building α := do
  ofExcept (test (← get))

/-- Fails if the current block is terminated. -/
def ensureOpen : Building Unit := do
  let builder ← get
  if builder.isTerminated then throw (.terminated builder.current)

/-- Adds an instruction to the current block. -/
def push (instruction : Instruction) : Building Unit := do
  ensureOpen
  modify fun builder =>
    { builder with blocks := builder.blocks.map fun block =>
        if block.label = builder.current then
          { block with instructions := block.instructions ++ [instruction] }
        else block }

/-- The name of the next unnamed value. -/
def freshName : Building String := do
  let number := (← get).nextValue
  modify fun builder => { builder with nextValue := number + 1 }
  return toString number

/-- Declares a function. A second declaration of a name has to agree with the first. -/
def declare (name : String) (signature : Signature) : Building Unit := do
  if name = Builder.entryName then throw (.reservedName name)
  match (← get).declarations.find? fun function => function.name = name with
  | some known =>
    let declared : Signature := ⟨known.ret, known.params.map Param.ty⟩
    if declared ≠ signature then throw (.redeclared name declared signature)
  | none =>
    let irreversible := (Intrinsic.ofName? name).any Intrinsic.isIrreversible
    let declaration :=
      { Function.declaration name signature.params signature.ret with
        attributes := if irreversible then [.flag "irreversible"] else [] }
    modify fun builder =>
      { builder with declarations := builder.declarations ++ [declaration] }

/-- Calls a function, which is declared with its first call. Unless it returns nothing,
the value it returns gets a number. -/
def call (name : String) (ret : Ty) (args : List Operand) : Building (Option Value) := do
  ensureOpen
  args.forM fun arg => check (Builder.checkOperand · arg)
  declare name ⟨ret, args.map Operand.ty⟩
  let result ← if ret.isVoid then pure none else some <$> freshName
  push (.call result ret name args)
  return result.map .reg

/-- Calls a function of the catalog. The arguments get the types of its parameters. -/
def intrinsic (callee : Intrinsic) (args : List Value) : Building (Option Value) := do
  let signature := callee.signature
  if args.length ≠ signature.params.length then
    throw (.argumentCount callee.name signature.params.length args.length)
  call callee.name signature.ret ((signature.params.zip args).map fun (ty, value) => ⟨ty, value⟩)

/-- Calls a function of the catalog that returns nothing. -/
def perform (callee : Intrinsic) (args : List Value) : Building Unit := do
  let _ ← intrinsic callee args

/-- Calls a function of the catalog that returns a value. -/
def evaluate (callee : Intrinsic) (args : List Value) : Building Value := do
  match ← intrinsic callee args with
  | some value => return value
  | none => throw (.noValue callee.name)

/-- Adds a global string with a zero byte at its end. The value is its first byte. -/
def addString (text : String) : Building Value := do
  let number := (← get).globals.length
  let global : GlobalString :=
    { name := toString number, bytes := Text.utf8 text.toList ++ [0] }
  modify fun builder => { builder with globals := builder.globals ++ [global] }
  return .firstByte global.name (UInt64.ofNat global.bytes.length)

/-- An output label, which is a global string if there is one. -/
def label (text : Option String) : Building Value :=
  match text with
  | some text => addString text
  | none => return .null

/-- Adds a block and returns its label. A label that is in use gets a number. -/
def appendBlock (label : String) : Building String := do
  let unique := (← get).freeLabel (if label.isEmpty then "block" else label)
  modify fun builder => { builder with blocks := builder.blocks ++ [⟨unique, []⟩] }
  return unique

/-- Makes a block the current one. -/
def position (label : String) : Building Unit := do
  if ((← get).block? label).isNone then throw (.unknownBlock label)
  modify fun builder => { builder with current := label }

/-- A block has to exist before a branch goes there. -/
def checkTarget (label : String) : Building Unit := do
  if ((← get).block? label).isNone then throw (.unknownTarget label)

/-- Ends the current block with a branch. -/
def branch (target : String) : Building Unit := do
  checkTarget target
  push (.branch target)

/-- Ends the current block with a branch on a condition. -/
def branchIf (condition : Value) (onTrue onFalse : String) : Building Unit := do
  checkTarget onTrue
  checkTarget onFalse
  push (.branchIf condition onTrue onFalse)

/-- Ends the current block with a return. -/
def ret : Building Unit :=
  push (.ret none)

/-- Ends the current block with a branch unless it has a terminator. -/
def fallThrough (target : String) : Building Unit := do
  if !(← get).isTerminated then branch target

/-- Builds one of two bodies' blocks for either value of a condition. Both go on to a third
block, which is the current one afterwards. -/
def ifElse (condition : Value) (onTrue : Building α) (onFalse : Building β) : Building (α × β) := do
  ensureOpen
  let thenLabel ← appendBlock "then"
  let elseLabel ← appendBlock "else"
  branchIf condition thenLabel elseLabel
  let next ← appendBlock "continue"
  position thenLabel
  let a ← onTrue
  fallThrough next
  position elseLabel
  let b ← onFalse
  fallThrough next
  position next
  return (a, b)

/-- Builds one of two bodies' blocks for either outcome that a result holds. -/
def ifResult (result : Value) (onOne : Building α) (onZero : Building β) : Building (α × β) := do
  let condition ← evaluate .readResult [result]
  ifElse condition onOne onZero

/-- Integers have 1 to 64 bits. -/
def checkWidth (width : UInt32) : Building Unit :=
  if 1 ≤ width ∧ width ≤ 64 then return () else throw (.width width)

/-- Adds an instruction that binds the next unnamed value. -/
def pushNamed (make : String → Instruction) : Building Value := do
  let name ← freshName
  push (make name)
  return .reg name

def binary (op : BinaryOp) (width : UInt32) (lhs rhs : Value) : Building Value := do
  checkWidth width
  pushNamed fun name => .binary name op width lhs rhs

def compare (predicate : Predicate) (width : UInt32) (lhs rhs : Value) : Building Value := do
  checkWidth width
  pushNamed fun name => .compare name predicate width lhs rhs

/-- Whether a conversion goes in its direction: to more bits or to fewer. -/
def changesWidth (conversion : Conversion) (source target : UInt32) : Bool :=
  match conversion with
  | .zext | .sext => source < target
  | .trunc => target < source

def convert (conversion : Conversion) (source : UInt32) (value : Value) (target : UInt32) :
    Building Value := do
  checkWidth source
  checkWidth target
  if !changesWidth conversion source target then throw (.conversion conversion source target)
  pushNamed fun name => .convert name conversion source value target

def select (condition : Value) (ty : Ty) (onTrue onFalse : Value) : Building Value :=
  pushNamed fun name => .select name condition ty onTrue onFalse

/-- A rotation of two qubits, given by the function that does it. -/
def rotatePair (callee : Intrinsic) (theta : Double) (a b : Value) : Building Unit :=
  match callee with
  | .rotatePair _ => perform callee [.double theta, a, b]
  | _ => throw (.notPairRotation callee.name)

/-- Records a value under a label. The label's string is added first. -/
def record (kind : RecordKind) (value : Value) (labelText : Option String) : Building Unit := do
  let labelValue ← label labelText
  perform (.record kind) [value, labelValue]

end Building

end QuantumIR
