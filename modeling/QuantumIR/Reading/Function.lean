import QuantumIR.Reading.Instruction
import QuantumIR.Module

/-!
Reading functions. Unnamed parameters of a definition, unlabelled blocks and unnamed
values share one row of numbers in the order of the text.
-/

namespace QuantumIR

open Reading

/-- A key between quotes, and a value if an equals sign follows. -/
def Attribute.readQuoted : Reading Attribute := do
  let key ← stringLiteral
  if ← takeIf (.mark .equals) then return .keyValue key (← stringLiteral)
  else return .flag key

namespace Function

/-- The name of a parameter. One of a definition gets a number if it has none. -/
def readParamName (isDefinition : Bool) : Reading (Option String) := do
  match ← peek? with
  | some (.localName name) =>
    advance
    observe name
    return some name
  | _ => if isDefinition then return some (← freshNumber) else return none

/-- A parameter. -/
def readParam (isDefinition : Bool) : Reading Param := do
  if ← isNext (.mark .ellipsis) then unsupported .variadic
  let ty ← Ty.read
  skipParamAttributes
  return ⟨ty, ← readParamName isDefinition⟩

/-- What stands between parameters and body: references to attribute groups, each
with its place, and quoted attributes. Words and metadata are dropped. -/
structure Suffix where
  groups : List (UInt32 × Place)
  attributes : List Attribute

/-- One more of the things between parameters and body, if there is one. -/
def readSuffixEntry (suffix : Suffix) : Reading (Suffix ⊕ Suffix) := do
  match ← peek? with
  | some (.attrGroup number) =>
    let place ← here
    advance
    return .inl { suffix with groups := suffix.groups ++ [(number, place)] }
  | some (.string _) =>
    let attr ← Attribute.readQuoted
    return .inl { suffix with attributes := suffix.attributes ++ [attr] }
  | some (.word _) =>
    advance
    if ← takeIf (.mark .leftParen) then skipToParen else skipInteger
    return .inl suffix
  | some (.metadata _) =>
    advance
    return .inl suffix
  | _ => return .inr suffix

def readSuffix : Reading Suffix :=
  loop .attributeEntry readSuffixEntry ⟨[], []⟩

/-- The label of a block. A block without one gets a number. -/
def readLabel : Reading String := do
  match ← peek? with
  | some (.labelDef label) =>
    advance
    observe label
    return label
  | _ => freshNumber

/-- One more instruction of a block, unless a label or the end of the body is next. -/
def readInstruction (instructions : List Instruction) :
    Reading (List Instruction ⊕ List Instruction) := do
  match ← peek? with
  | none | some (.labelDef _) | some (.mark .rightBrace) => return .inr instructions
  | _ =>
    let instruction ← Instruction.read
    let instructions := instructions ++ [instruction]
    if instruction.isTerminator then return .inr instructions
    else return .inl instructions

/-- Instructions up to one that ends the block, the next label or the end of the body. -/
def readInstructions : Reading (List Instruction) :=
  loop .instruction readInstruction []

/-- One more block, or the closing brace. -/
def readBlock (blocks : List Block) : Reading (List Block ⊕ List Block) := do
  if ← takeIf (.mark .rightBrace) then return .inr blocks
  if (← peek?).isNone then unexpected .closingBrace
  let label ← readLabel
  return .inl (blocks ++ [⟨label, ← readInstructions⟩])

/-- The blocks of a body between braces. -/
def readBlocks : Reading (List Block) := do
  expectMark .leftBrace
  loop .instruction readBlock []

/-- The body of a definition. A declaration has none. -/
def readBody (isDefinition : Bool) : Reading (List Block) :=
  if isDefinition then readBlocks else return []

/-- The keyword of a function, and whether it is that of a definition. -/
def readFunctionKeyword : Reading Bool := do
  if ← takeIf (.keyword .define) then return true
  if ← takeIf (.keyword .declare) then return false
  unexpected .functionKeyword

/-- A function, from its keyword on, with the attribute groups that it refers to. -/
def read : Reading (Function × List (UInt32 × Place)) := do
  let isDefinition ← readFunctionKeyword
  restartNumbers
  skipWords fun _ => true
  let ret ← Ty.read
  skipWords fun _ => true
  let name ← globalName
  let params ← parenthesized (readParam isDefinition)
  let suffix ← readSuffix
  let blocks ← readBody isDefinition
  return ({ name, ret, params, blocks, attributes := suffix.attributes }, suffix.groups)

end Function

end QuantumIR
