import QuantumIR.Reading.Basic
import QuantumIR.Value
import QuantumIR.Double.Decimal

/-!
Reading types and operands.
-/

namespace QuantumIR

open Reading

/-- One more opening `[N x` before the element type of an array, if there is one. -/
def Ty.readOpening (openings : List UInt64) : Reading (List UInt64 ⊕ List UInt64) := do
  if ← takeIf (.mark .leftBracket) then
    let length ← integer
    if length < 0 then unexpected .arrayLength
    expectKeyword .x
    return .inl (length.toUInt64 :: openings)
  else return .inr openings

/-- The openings `[N x` before the element type of arrays, the innermost first. -/
def Ty.readArrayOpenings : Reading (List UInt64) :=
  loop .ty Ty.readOpening []

/-- A type that starts with a token and is neither a pointer with a target nor an array. -/
def Ty.readBaseAt (token? : Option Token) : Reading Ty := do
  match token? with
  | some (.keyword .void) =>
    advance
    return .void
  | some (.keyword .double) =>
    advance
    return .double
  | some (.intType width) =>
    advance
    return .int width
  | some (.keyword .ptr) =>
    advance
    if ← isNext (.word "addrspace") then
      advance
      unsupported .addressSpace
    return .ptr
  | some (.localName name) =>
    advance
    return .named name
  | some (.word word) =>
    if word = "half" ∨ word = "float" ∨ word = "fp128" then unsupported (.typeWord word)
    else unexpected .ty
  | _ => unexpected .ty

def Ty.readBase : Reading Ty := do
  Ty.readBaseAt (← peek?)

/-- One more star after a type, if there is one. -/
def Ty.readStar (ty : Ty) : Reading (Ty ⊕ Ty) := do
  if ← takeIf (.mark .star) then return .inl (.pointer ty) else return .inr ty

/-- The stars after a type. -/
def Ty.readStars (ty : Ty) : Reading Ty :=
  loop .ty Ty.readStar ty

/-- The closings of array types around an element type. -/
def Ty.readArrayClosings : List UInt64 → Ty → Reading Ty
  | [], ty => return ty
  | length :: lengths, ty => do
    expectMark .rightBracket
    Ty.readArrayClosings lengths (← Ty.readStars (.array length ty))

/-- A type with all stars after it. -/
def Ty.read : Reading Ty := do
  let openings ← Ty.readArrayOpenings
  let base ← Ty.readBase
  Ty.readArrayClosings openings (← Ty.readStars base)

/-- Words that stand for constants of any type. -/
def isConstantWord (word : String) : Bool :=
  word = "undef" || word = "poison" || word = "zeroinitializer"

/-- Takes one attribute of a parameter, if there is one. -/
def skipParamAttribute (_ : Unit) : Reading (Unit ⊕ Unit) := do
  match ← peek? with
  | some (.word word) =>
    if isConstantWord word then return .inr ()
    advance
    if ← takeIf (.mark .leftParen) then skipToParen
    else if word = "align" ∨ word = "dereferenceable" then skipInteger
    return .inl ()
  | _ => return .inr ()

/-- Takes the attributes between a parameter's type and its name or value, such as
`noundef` or `align 8`. -/
def skipParamAttributes : Reading Unit :=
  loop .ty skipParamAttribute ()

/-- The rest of `inttoptr (iN index to T)`. Both types are read and dropped. -/
def Value.readAddress : Reading Value := do
  expectMark .leftParen
  let source ← Ty.read
  if source.intWidth?.isNone then unexpected .integerType
  let index ← integer
  expectKeyword .toWord
  let _ ← Ty.read
  expectMark .rightParen
  return .address index

/-- One of the two indices into a global string, which has to be zero. -/
def Value.readZeroIndex (start : Place) : Reading Unit := do
  expectMark .comma
  let ty ← Ty.read
  if ty.intWidth?.isNone then unexpected .integerIndexType
  let index ← integer
  if index ≠ 0 then unsupportedAt start .elementPastStart

/-- The rest of `getelementptr inbounds ([N x T], T* @name, i64 0, i64 0)`, whose
first word stands at `start`. -/
def Value.readFirstByte (start : Place) : Reading Value := do
  let _ ← takeIf (.word "inbounds")
  expectMark .leftParen
  match ← Ty.read with
  | .array length _ =>
    expectMark .comma
    let pointer ← Ty.read
    if !pointer.isPointer then unexpected .pointerType
    let name ← globalName
    Value.readZeroIndex start
    Value.readZeroIndex start
    expectMark .rightParen
    return .firstByte name length
  | _ => unsupportedAt start .elementOfNonArray

/-- A value of a known type. -/
def Value.read (ty : Ty) : Reading Value := do
  match ← peek? with
  | some (.localName name) =>
    advance
    return .reg name
  | some (.globalName name) =>
    advance
    return .global name
  | some (.integer n) =>
    advance
    return if ty.isDouble then .double (.ofInt n.toInt) else .int n
  | some (.float x) =>
    if ty.isDouble then
      advance
      return .double x
    else unexpected (.valueOf ty)
  | some (.keyword .trueWord) =>
    advance
    return .int 1
  | some (.keyword .falseWord) =>
    advance
    return .int 0
  | some (.keyword .null) =>
    advance
    return .null
  | some (.keyword .inttoptr) =>
    advance
    Value.readAddress
  | some (.keyword .getelementptr) =>
    let start ← here
    advance
    Value.readFirstByte start
  | some (.word word) =>
    if isConstantWord word then unsupported (.constant word) else unexpected (.valueOf ty)
  | _ => unexpected (.valueOf ty)

/-- A type, attributes that are dropped, and a value. -/
def Operand.read : Reading Operand := do
  let ty ← Ty.read
  skipParamAttributes
  return ⟨ty, ← Value.read ty⟩

end QuantumIR
