import QuantumIR.Proofs.Bounded.Steps

/-!
The grammar as bounded readings. Types are read by a reading that calls itself for the elements of
arrays. The number for the next thing without a name is handed from one reading to the next one
that may give a name, so that no other reading can change it.
-/

namespace QuantumIR.Bounded

/-! Types and operands. -/

/-- One more star after a type, if there is one. -/
def readStar (ty : Ty) : Bounded (Ty ⊕ Ty) := do
  if ← takeIf (.mark .star) then return .inl (.pointer ty) else return .inr ty

def readStars (ty : Ty) : Bounded Ty := loop readStar ty

/-- A type that starts with a token and is neither a pointer with a target nor an array. -/
def readBaseAt (token? : Option Token) : Bounded Ty := do
  match token? with
  | some (.keyword .void) =>
    advance
    return .void
  | some (.keyword .double) =>
    advance
    return .double
  | some (.intType width) =>
    advance
    return .int width
  | some (.keyword .ptr) =>
    advance
    if ← isNext (.word "addrspace") then
      advance
      unsupported .addressSpace
    return .ptr
  | some (.localName name) =>
    advance
    return .named name
  | some (.word word) =>
    if word = "half" ∨ word = "float" ∨ word = "fp128" then unsupported (.typeWord word)
    else unexpected .ty
  | _ => unexpected .ty

/-- A type with all stars after it, given a reading for the elements of arrays. -/
def readTyWith (readElement : Bounded Ty) : Bounded Ty := do
  let token? ← peek?
  if token? = some (.mark .leftBracket) then
    advance
    let length ← integer
    if length < 0 then unexpected .arrayLength
    expectKeyword .x
    let element ← readElement
    expectMark .rightBracket
    readStars (.array length.toUInt64 element)
  else
    readStars (← readBaseAt token?)

/-- A type whose reading calls itself at most so many times. -/
def readTyFor : Nat → Bounded Ty
  | 0 => readTyWith (stop .outOfTurns)
  | turns + 1 => readTyWith do
    turn
    readTyFor turns

def readTy : Bounded Ty := fun row cursor => readTyFor cursor.turns row cursor

/-- Takes one attribute of a parameter, if there is one. -/
def skipParamAttribute (_ : Unit) : Bounded (Unit ⊕ Unit) := do
  match ← peek? with
  | some (.word word) =>
    if isConstantWord word then return .inr ()
    advance
    if ← takeIf (.mark .leftParen) then skipToParen
    else if word = "align" ∨ word = "dereferenceable" then skipInteger
    return .inl ()
  | _ => return .inr ()

def skipParamAttributes : Bounded Unit := loop skipParamAttribute ()

/-- The rest of `inttoptr (iN index to T)`. -/
def readAddress : Bounded Value := do
  expectMark .leftParen
  let source ← readTy
  if source.intWidth?.isNone then unexpected .integerType
  let index ← integer
  expectKeyword .toWord
  let _ ← readTy
  expectMark .rightParen
  return .address index

/-- One turn of the loop over the two indices into a global string. -/
def readZeroIndex (start : Nat) : Bounded Unit := do
  turn
  expectMark .comma
  let ty ← readTy
  if ty.intWidth?.isNone then unexpected .integerIndexType
  let index ← integer
  if index ≠ 0 then unsupportedAt start .elementPastStart

/-- The rest of `getelementptr inbounds ([N x T], T* @name, i64 0, i64 0)`, whose first word has
just been taken. -/
def readFirstByte : Bounded Value := do
  let start ← previous
  let _ ← takeIf (.word "inbounds")
  expectMark .leftParen
  match ← readTy with
  | .array length _ =>
    expectMark .comma
    let pointer ← readTy
    if !pointer.isPointer then unexpected .pointerType
    let name ← globalName
    readZeroIndex start
    readZeroIndex start
    expectMark .rightParen
    return .firstByte name length
  | _ => unsupportedAt start .elementOfNonArray

/-- A value of a known type. -/
def readValue (ty : Ty) : Bounded Value := do
  match ← peek? with
  | some (.localName name) =>
    advance
    return .reg name
  | some (.globalName name) =>
    advance
    return .global name
  | some (.integer n) =>
    advance
    return if ty.isDouble then .double (.ofInt n.toInt) else .int n
  | some (.float x) =>
    if ty.isDouble then
      advance
      return .double x
    else unexpected (.valueOf ty)
  | some (.keyword .trueWord) =>
    advance
    return .int 1
  | some (.keyword .falseWord) =>
    advance
    return .int 0
  | some (.keyword .null) =>
    advance
    return .null
  | some (.keyword .inttoptr) =>
    advance
    readAddress
  | some (.keyword .getelementptr) =>
    advance
    readFirstByte
  | some (.word word) =>
    if isConstantWord word then unsupported (.constant word) else unexpected (.valueOf ty)
  | _ => unexpected (.valueOf ty)

/-- A type, attributes that are dropped, and a value. -/
def readOperand : Bounded Operand := do
  let ty ← readTy
  skipParamAttributes
  return ⟨ty, ← readValue ty⟩

/-! Instructions. -/

/-- The next number after a name: one past the name if that is a number and large enough. -/
def observe (number : Nat) (name : String) : Nat :=
  match Text.count? name.toList with
  | some n => max number (n + 1)
  | none => number

/-- The register that is written, or else the next number, with the number after it. -/
def nameResult (number : Nat) : Option String → String × Nat
  | some name => (name, number)
  | none => (toString number, number + 1)

/-- The register in front of an equals sign. -/
def readBinding (number : Nat) : Bounded (Option String × Nat) := do
  match ← peek?, ← peekSecond? with
  | some (.localName name), some (.mark .equals) =>
    advance
    advance
    return (some name, observe number name)
  | _, _ => return (none, number)

/-- Fails at the instruction that starts at a place if its value is assigned. -/
def refuseResult (result : Option String) (start : Nat) : Bounded Unit := do
  match result with
  | some name => failAt start (.unexpected .valueProducer (.assignment name))
  | none => return ()

/-- The name of the function that a call calls. -/
def readCallee : Bounded String := do
  match ← peek? with
  | some (.globalName name) =>
    advance
    return name
  | some (.localName _) => unsupported .indirectCall
  | _ => unexpected .callee

def isGroup : Token → Bool
  | .attrGroup _ => true
  | _ => false

/-- An operand as one of several arguments. -/
def readArgument (number : Nat) : Bounded (Operand × Nat) := do
  return (← readOperand, number)

/-- A call, from its keyword on. -/
def readCall (result : Option String) (number : Nat) : Bounded (Instruction × Nat) := do
  let start ← here
  expectKeyword .call
  skipWords fun _ => true
  let ret ← readTy
  if ← isNext (.mark .leftParen) then unsupported .functionType
  let callee ← readCallee
  let (args, number) ← parenthesized readArgument number
  skipWhile isGroup
  if ret.isVoid then
    refuseResult result start
    return (.call none ret callee args, number)
  else
    let (name, number) := nameResult number result
    return (.call (some name) ret callee args, number)

/-- What follows the keyword of a return. -/
def readReturn : Bounded Instruction := do
  if ← takeIf (.keyword .void) then return .ret none
  return .ret (some (← readOperand))

/-- A label in a branch. -/
def readTarget : Bounded String := do
  expectKeyword .label
  localName

/-- What follows the keyword of a branch. -/
def readBranch : Bounded Instruction := do
  if ← takeIf (.keyword .label) then return .branch (← localName)
  let ty ← readTy
  if ty ≠ .bool then unsupported (.branchOn ty)
  let condition ← readValue ty
  expectMark .comma
  let onTrue ← readTarget
  expectMark .comma
  return .branchIf condition onTrue (← readTarget)

/-- An integer type and two values of it. -/
def readPair (word : String) : Bounded (UInt32 × Value × Value) := do
  let start ← here
  let ty ← readTy
  match ty.intWidth? with
  | none => unsupportedAt start (.operationOn word ty)
  | some width =>
    let lhs ← readValue ty
    expectMark .comma
    return (width, lhs, ← readValue ty)

/-- What follows the keyword of a comparison. -/
def readCompare (result : Option String) (number : Nat) : Bounded (Instruction × Nat) := do
  let predicate? := match ← peek? with
    | some (.word word) => Predicate.ofMnemonic? word
    | _ => none
  match predicate? with
  | none => unexpected .predicate
  | some predicate =>
    advance
    let (width, lhs, rhs) ← readPair "icmp"
    let (name, number) := nameResult number result
    return (.compare name predicate width lhs rhs, number)

/-- What follows the keyword of a selection that starts at a place. -/
def readSelect (result : Option String) (number start : Nat) : Bounded (Instruction × Nat) := do
  let condition ← readOperand
  if condition.ty ≠ .bool then unsupportedAt start (.selectOn condition.ty)
  expectMark .comma
  let onTrue ← readOperand
  expectMark .comma
  let onFalse ← readOperand
  if onTrue.ty ≠ onFalse.ty then unsupportedAt start .selectMismatch
  let (name, number) := nameResult number result
  return (.select name condition.value onTrue.ty onTrue.value onFalse.value, number)

/-- What follows the word of an operator. -/
def readBinary (result : Option String) (number : Nat) (op : BinaryOp) :
    Bounded (Instruction × Nat) := do
  skipWords Instruction.isFlag
  let (width, lhs, rhs) ← readPair op.mnemonic
  let (name, number) := nameResult number result
  return (.binary name op width lhs rhs, number)

/-- What follows the word of a conversion that starts at a place. -/
def readConvert (result : Option String) (number : Nat) (conversion : Conversion) (start : Nat) :
    Bounded (Instruction × Nat) := do
  let _ ← takeIf (.word "nneg")
  let source ← readTy
  match source.intWidth? with
  | none => unsupportedAt start (.convertFrom conversion.mnemonic source)
  | some sourceWidth =>
    let value ← readValue source
    expectKeyword .toWord
    let target ← readTy
    match target.intWidth? with
    | none => unsupportedAt start (.convertTo conversion.mnemonic target)
    | some targetWidth =>
      let (name, number) := nameResult number result
      return (.convert name conversion sourceWidth value targetWidth, number)

/-- An instruction that starts with a plain word. -/
def readWord (result : Option String) (number start : Nat) (word : String) :
    Bounded (Instruction × Nat) := do
  if Instruction.isTailWord word then
    advance
    if ← isNext (.keyword .call) then readCall result number else unexpected .call
  else
    match BinaryOp.ofMnemonic? word, Conversion.ofMnemonic? word with
    | some op, _ =>
      advance
      readBinary result number op
    | none, some conversion =>
      advance
      readConvert result number conversion start
    | none, none => unsupported (.instruction word)

def isMetadata : Option Token → Bool
  | some (.metadata _) => true
  | _ => false

/-- Takes one piece of attached metadata, if there is one. -/
def skipAttachment (_ : Unit) : Bounded (Unit ⊕ Unit) := do
  let comma? ← peek?
  let metadata? ← peekSecond?
  if comma? = some (.mark .comma) ∧ isMetadata metadata? then
    advance
    advance
    if isMetadata (← peek?) then advance
    return .inl ()
  else return .inr ()

def skipAttachments : Bounded Unit := loop skipAttachment ()

/-- An instruction without the register it binds and the metadata attached to it. -/
def readInstructionBody (result : Option String) (number : Nat) : Bounded (Instruction × Nat) := do
  let start ← here
  match ← peek? with
  | some (.keyword .call) => readCall result number
  | some (.keyword .ret) =>
    refuseResult result start
    advance
    return (← readReturn, number)
  | some (.keyword .br) =>
    refuseResult result start
    advance
    return (← readBranch, number)
  | some (.keyword .icmp) =>
    advance
    readCompare result number
  | some (.keyword .select) =>
    advance
    readSelect result number start
  | some (.word word) => readWord result number start word
  | _ => unexpected .instruction

def readInstruction (number : Nat) : Bounded (Instruction × Nat) := do
  let (result, number) ← readBinding number
  let instruction ← readInstructionBody result number
  skipAttachments
  return instruction

/-! Functions. -/

/-- A key between quotes, and a value if an equals sign follows. -/
def readQuoted : Bounded Attribute := do
  let key ← stringLiteral
  if ← takeIf (.mark .equals) then return .keyValue key (← stringLiteral)
  else return .flag key

/-- The name of a parameter. -/
def readParamName (isDefinition : Bool) (number : Nat) : Bounded (Option String × Nat) := do
  match ← peek? with
  | some (.localName name) =>
    advance
    return (some name, observe number name)
  | _ =>
    if isDefinition then return (some (toString number), number + 1) else return (none, number)

def readParam (isDefinition : Bool) (number : Nat) : Bounded (Param × Nat) := do
  if ← isNext (.mark .ellipsis) then unsupported .variadic
  let ty ← readTy
  skipParamAttributes
  let (name, number) ← readParamName isDefinition number
  return (⟨ty, name⟩, number)

/-- What stands between parameters and body. References to groups stand with their places. -/
structure Suffix where
  groups : List (UInt32 × Nat)
  attributes : List Attribute

/-- One more of the things between parameters and body, if there is one. -/
def readSuffixEntry (suffix : Suffix) : Bounded (Suffix ⊕ Suffix) := do
  match ← peek? with
  | some (.attrGroup number) =>
    let place ← here
    advance
    return .inl { suffix with groups := suffix.groups ++ [(number, place)] }
  | some (.string _) =>
    let attr ← readQuoted
    return .inl { suffix with attributes := suffix.attributes ++ [attr] }
  | some (.word _) =>
    advance
    if ← takeIf (.mark .leftParen) then skipToParen else skipInteger
    return .inl suffix
  | some (.metadata _) =>
    advance
    return .inl suffix
  | _ => return .inr suffix

def readSuffix : Bounded Suffix := loop readSuffixEntry ⟨[], []⟩

/-- The label of a block. -/
def readBlockLabel (number : Nat) : Bounded (String × Nat) := do
  match ← peek? with
  | some (.labelDef label) =>
    advance
    return (label, observe number label)
  | _ => return (toString number, number + 1)

/-- One more instruction of a block, unless a label or the end of the body is next. -/
def readNextInstruction (instructions : List Instruction × Nat) :
    Bounded ((List Instruction × Nat) ⊕ (List Instruction × Nat)) := do
  match ← peek? with
  | none | some (.labelDef _) | some (.mark .rightBrace) => return .inr instructions
  | _ =>
    let (instruction, number) ← readInstruction instructions.2
    let instructions := (instructions.1 ++ [instruction], number)
    if instruction.isTerminator then return .inr instructions
    else return .inl instructions

def readInstructions (number : Nat) : Bounded (List Instruction × Nat) :=
  loop readNextInstruction ([], number)

/-- One more block, or the closing brace. -/
def readBlock (blocks : List Block × Nat) :
    Bounded ((List Block × Nat) ⊕ (List Block × Nat)) := do
  if ← takeIf (.mark .rightBrace) then return .inr blocks
  if (← peek?).isNone then unexpected .closingBrace
  let (label, number) ← readBlockLabel blocks.2
  let (instructions, number) ← readInstructions number
  return .inl (blocks.1 ++ [⟨label, instructions⟩], number)

/-- The blocks of a body between braces. -/
def readBlocks (number : Nat) : Bounded (List Block × Nat) := do
  expectMark .leftBrace
  loop readBlock ([], number)

def readBody (isDefinition : Bool) (number : Nat) : Bounded (List Block × Nat) :=
  if isDefinition then readBlocks number else return ([], number)

/-- The keyword of a function, and whether it is that of a definition. -/
def readFunctionKeyword : Bounded Bool := do
  if ← takeIf (.keyword .define) then return true
  if ← takeIf (.keyword .declare) then return false
  unexpected .functionKeyword

/-- A function with the attribute groups that it refers to. Its numbers start at zero. -/
def readFunction : Bounded (Function × List (UInt32 × Nat)) := do
  let isDefinition ← readFunctionKeyword
  skipWords fun _ => true
  let ret ← readTy
  skipWords fun _ => true
  let name ← globalName
  let (params, number) ← parenthesized (readParam isDefinition) 0
  let suffix ← readSuffix
  let (blocks, _) ← readBody isDefinition number
  return ({ name, ret, params, blocks, attributes := suffix.attributes }, suffix.groups)

/-! Modules. -/

/-- A file name, from its keyword on. -/
def readSource : Bounded String := do
  expectKeyword .sourceFilename
  expectMark .equals
  stringLiteral

/-- A line about the target machine, which is dropped. -/
def readTargetLine : Bounded Unit := do
  expectKeyword .target
  if !(← takeIf (.word "datalayout")) then
    if !(← takeIf (.word "triple")) then unexpected .targetEntry
  expectMark .equals
  let _ ← stringLiteral

/-- An opaque type, from its name on. -/
def readOpaqueType : Bounded String := do
  let name ← localName
  expectMark .equals
  expectKeyword .typeWord
  if ← takeIf (.keyword .opaqueWord) then return name else unsupported .structType

/-- Takes one alignment, if there is one. -/
def skipAlignment (_ : Unit) : Bounded (Unit ⊕ Unit) := do
  if ← takeIf (.mark .comma) then
    if !(← takeIf (.word "align")) then unexpected .align
    let _ ← integer
    return .inl ()
  else return .inr ()

def skipAlignments : Bounded Unit := loop skipAlignment ()

/-- The bytes of a global string, as many as its type says. -/
def readBytes (length : UInt64) : Bounded (List UInt8) := do
  match ← peek? with
  | some (.bytes bytes) =>
    if bytes.length ≠ length.toNat then unsupported (.stringLength bytes.length length)
    advance
    return bytes
  | _ => unsupported .globalInitializer

/-- How many bytes a string of a type has. -/
def stringLength? : Ty → Option UInt64
  | .array length (.int 8) => some length
  | _ => none

/-- A global string, from its name on. -/
def readGlobal : Bounded GlobalString := do
  let name ← globalName
  expectMark .equals
  skipWords fun _ => true
  if !(← takeIf (.keyword .constant)) then
    if !(← takeIf (.keyword .global)) then unexpected .constantOrGlobal
  let start ← here
  let ty ← readTy
  match stringLength? ty with
  | some length =>
    let bytes ← readBytes length
    skipAlignments
    return { name, bytes }
  | none => unsupportedAt start (.globalOf ty)

/-- An attribute of a group. A keyword is given by the places of its first and its last token. -/
inductive Entry where
  | quoted (attr : Attribute)
  | keyword (first last : Nat)

/-- An attribute group with the places of its braces. -/
structure Group where
  number : UInt32
  entries : List Entry
  first : Nat
  last : Nat

/-- Takes a keyword attribute: a word, and its arguments or its value. -/
def skipKeyword : Bounded Unit := do
  advance
  if ← takeIf (.mark .leftParen) then skipToParen
  else if ← takeIf (.mark .equals) then advance

/-- A keyword attribute with the part of the text that spells it. -/
def readKeyword : Bounded Entry := do
  let start ← here
  skipKeyword
  let (first, last) ← sliceFrom start
  return .keyword first last

/-- One more attribute of a group, or its closing brace. -/
def readEntry (entries : List Entry) : Bounded (List Entry ⊕ List Entry) := do
  match ← peek? with
  | some (.mark .rightBrace) =>
    advance
    return .inr entries
  | some (.string _) => return .inl (entries ++ [.quoted (← readQuoted)])
  | some (.word _) => return .inl (entries ++ [← readKeyword])
  | _ => unexpected .attributeEntry

/-- An attribute group, from its keyword on. -/
def readGroup : Bounded Group := do
  expectKeyword .attributes
  match ← peek? with
  | some (.attrGroup number) =>
    advance
    expectMark .equals
    let first ← here
    expectMark .leftBrace
    let entries ← loop readEntry []
    return { number, entries, first, last := ← previous }
  | _ => unexpected .groupNumber

/-- What has been read of a module so far. -/
structure Draft where
  source : Option String
  opaqueTypes : List String
  globals : List GlobalString
  functions : List (Function × List (UInt32 × Nat))
  groups : List Group

/-- One entity of a module, added to what has been read so far. -/
def readEntity (draft : Draft) : Bounded Draft := do
  let start ← here
  match ← peek? with
  | some (.keyword .sourceFilename) => return { draft with source := some (← readSource) }
  | some (.keyword .target) =>
    readTargetLine
    return draft
  | some (.localName _) =>
    return { draft with opaqueTypes := draft.opaqueTypes ++ [← readOpaqueType] }
  | some (.globalName _) =>
    let global ← readGlobal
    if draft.globals.any fun other => other.name = global.name then
      failAt start (.redefinition (.global global.name))
    return { draft with globals := draft.globals ++ [global] }
  | some (.keyword .declare) | some (.keyword .define) =>
    return { draft with functions := draft.functions ++ [← readFunction] }
  | some (.keyword .attributes) =>
    let group ← readGroup
    if draft.groups.any fun other => other.number = group.number then
      failAt start (.redefinition (.group group.number))
    return { draft with groups := draft.groups ++ [group] }
  | _ => unexpected .topLevel

/-- One more entity, unless the row ends. -/
def readNextEntity (draft : Draft) : Bounded (Draft ⊕ Draft) := do
  if (← peek?).isNone then return .inr draft
  else return .inl (← readEntity draft)

def readEntities : Bounded Draft := loop readNextEntity ⟨none, [], [], [], []⟩

/-- The entries of a group that is referred to. -/
def findGroup (groups : List Group) (reference : UInt32 × Nat) : Bounded (List Entry) := do
  turn
  match groups.find? fun group => group.number = reference.1 with
  | some group => return group.entries
  | none => failAt reference.2 (.undefinedGroup reference.1)

/-- A function with the entries of the groups it refers to. -/
def resolve (groups : List Group) (entry : Function × List (UInt32 × Nat)) :
    Bounded (Function × List Entry) := do
  turn
  let found ← entry.2.mapM (findGroup groups)
  return (entry.1, found.flatten)

/-- A module whose keyword attributes are still places of tokens. The attributes of a function are
the given entries and then its own. -/
structure Outline where
  source : Option String
  opaqueTypes : List String
  globals : List GlobalString
  functions : List (Function × List Entry)
  groups : List Group

/-- The outline that a row of tokens spells. -/
def readOutline : Bounded Outline := do
  let draft ← readEntities
  let functions ← draft.functions.mapM (resolve draft.groups)
  return {
    source := draft.source
    opaqueTypes := draft.opaqueTypes
    globals := draft.globals
    functions
    groups := draft.groups }

end QuantumIR.Bounded
