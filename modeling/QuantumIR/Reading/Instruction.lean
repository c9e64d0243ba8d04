import QuantumIR.Reading.Operand
import QuantumIR.Instruction

/-!
Reading instructions. An instruction that gives a value may leave it unnamed and
then takes the next number; one that gives none must not be assigned.
-/

namespace QuantumIR

open Reading

namespace Instruction

/-- The register in front of an equals sign. -/
def readBinding : Reading (Option String) := do
  match ← peek?, ← peekSecond? with
  | some (.localName name), some (.mark .equals) =>
    advance
    advance
    observe name
    return some name
  | _, _ => return none

/-- The register that is written, or else the next number. -/
def nameResult : Option String → Reading String
  | some name => return name
  | none => freshNumber

/-- Fails at the instruction that starts at a place if its value is assigned. -/
def refuseResult (result : Option String) (start : Place) : Reading Unit := do
  match result with
  | some name => failAt start (.unexpected .valueProducer (.assignment name))
  | none => return ()

/-- The name of the function that a call calls. -/
def readCallee : Reading String := do
  match ← peek? with
  | some (.globalName name) =>
    advance
    return name
  | some (.localName _) => unsupported .indirectCall
  | _ => unexpected .callee

/-- Takes attribute groups after a call. -/
def skipGroups : Reading Unit := fun state =>
  .ok ((), { state with rest := state.rest.dropWhile fun token =>
    match token.token with
    | .attrGroup _ => true
    | _ => false })

/-- A call, from its keyword on. -/
def readCall (result : Option String) : Reading Instruction := do
  let start ← here
  expectKeyword .call
  skipWords fun _ => true
  let ret ← Ty.read
  if ← isNext (.mark .leftParen) then unsupported .functionType
  let callee ← readCallee
  let args ← parenthesized Operand.read
  skipGroups
  if ret.isVoid then
    refuseResult result start
    return .call none ret callee args
  else return .call (some (← nameResult result)) ret callee args

/-- What follows the keyword of a return. -/
def readReturn : Reading Instruction := do
  if ← takeIf (.keyword .void) then return .ret none
  return .ret (some (← Operand.read))

/-- A label in a branch. -/
def readLabel : Reading String := do
  expectKeyword .label
  localName

/-- What follows the keyword of a branch. -/
def readBranch : Reading Instruction := do
  if ← takeIf (.keyword .label) then return .branch (← localName)
  let ty ← Ty.read
  if ty ≠ .bool then unsupported (.branchOn ty)
  let condition ← Value.read ty
  expectMark .comma
  let onTrue ← readLabel
  expectMark .comma
  return .branchIf condition onTrue (← readLabel)

/-- An integer type and two values of it. -/
def readPair (word : String) : Reading (UInt32 × Value × Value) := do
  let start ← here
  let ty ← Ty.read
  match ty.intWidth? with
  | none => unsupportedAt start (.operationOn word ty)
  | some width =>
    let lhs ← Value.read ty
    expectMark .comma
    return (width, lhs, ← Value.read ty)

/-- What follows the keyword of a comparison. -/
def readCompare (result : Option String) : Reading Instruction := do
  let predicate? := match ← peek? with
    | some (.word word) => Predicate.ofMnemonic? word
    | _ => none
  match predicate? with
  | none => unexpected .predicate
  | some predicate =>
    advance
    let (width, lhs, rhs) ← readPair "icmp"
    return .compare (← nameResult result) predicate width lhs rhs

/-- What follows the keyword of a selection that starts at a place. -/
def readSelect (result : Option String) (start : Place) : Reading Instruction := do
  let condition ← Operand.read
  if condition.ty ≠ .bool then unsupportedAt start (.selectOn condition.ty)
  expectMark .comma
  let onTrue ← Operand.read
  expectMark .comma
  let onFalse ← Operand.read
  if onTrue.ty ≠ onFalse.ty then unsupportedAt start .selectMismatch
  return .select (← nameResult result) condition.value onTrue.ty onTrue.value onFalse.value

/-- Words after an operator that only promise something about its operands. -/
def isFlag (word : String) : Bool :=
  word = "nuw" || word = "nsw" || word = "exact" || word = "disjoint"

/-- What follows the word of an operator. -/
def readBinary (result : Option String) (op : BinaryOp) : Reading Instruction := do
  skipWords isFlag
  let (width, lhs, rhs) ← readPair op.mnemonic
  return .binary (← nameResult result) op width lhs rhs

/-- What follows the word of a conversion that starts at a place. -/
def readConvert (result : Option String) (conversion : Conversion) (start : Place) :
    Reading Instruction := do
  let _ ← takeIf (.word "nneg")
  let source ← Ty.read
  match source.intWidth? with
  | none => unsupportedAt start (.convertFrom conversion.mnemonic source)
  | some sourceWidth =>
    let value ← Value.read source
    expectKeyword .toWord
    let target ← Ty.read
    match target.intWidth? with
    | none => unsupportedAt start (.convertTo conversion.mnemonic target)
    | some targetWidth =>
      return .convert (← nameResult result) conversion sourceWidth value targetWidth

/-- Words that mark calls whose caller has nothing left to do. They are dropped. -/
def isTailWord (word : String) : Bool :=
  word = "tail" || word = "musttail" || word = "notail"

/-- An instruction that starts with a plain word. -/
def readWord (result : Option String) (start : Place) (word : String) : Reading Instruction := do
  if isTailWord word then
    advance
    if ← isNext (.keyword .call) then readCall result else unexpected .call
  else
    match BinaryOp.ofMnemonic? word, Conversion.ofMnemonic? word with
    | some op, _ =>
      advance
      readBinary result op
    | none, some conversion =>
      advance
      readConvert result conversion start
    | none, none => unsupported (.instruction word)

/-- Metadata after a comma, with one more piece of metadata that may follow it. -/
def withoutAttachments : List PlacedToken → List PlacedToken
  | ⟨.mark .comma, _⟩ :: ⟨.metadata _, _⟩ :: ⟨.metadata _, _⟩ :: rest => withoutAttachments rest
  | ⟨.mark .comma, _⟩ :: ⟨.metadata _, _⟩ :: rest => withoutAttachments rest
  | tokens => tokens

/-- Takes the metadata attached to an instruction. -/
def skipAttachments : Reading Unit := fun state =>
  .ok ((), { state with rest := withoutAttachments state.rest })

/-- An instruction without the register it binds and the metadata attached to it. -/
def readBody (result : Option String) : Reading Instruction := do
  let start ← here
  match ← peek? with
  | some (.keyword .call) => readCall result
  | some (.keyword .ret) =>
    refuseResult result start
    advance
    readReturn
  | some (.keyword .br) =>
    refuseResult result start
    advance
    readBranch
  | some (.keyword .icmp) =>
    advance
    readCompare result
  | some (.keyword .select) =>
    advance
    readSelect result start
  | some (.word word) => readWord result start word
  | _ => unexpected .instruction

/-- An instruction. -/
def read : Reading Instruction := do
  let result ← readBinding
  let instruction ← readBody result
  skipAttachments
  return instruction

end Instruction

end QuantumIR
