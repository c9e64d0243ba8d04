import QuantumIR.Reading.Function
import QuantumIR.Token.Lexer

/-!
Reading modules. Attribute groups may be defined after the functions that refer to
them, so references are looked up once the whole text is read.
-/

namespace QuantumIR

open Reading

namespace Module

/-- What has been read of a module so far. -/
structure Draft where
  source : Option String
  opaqueTypes : List String
  globals : List GlobalString
  functions : List (Function × List (UInt32 × Place))
  groups : List (UInt32 × List Attribute)

/-- A file name, from its keyword on. -/
def readSource : Reading String := do
  expectKeyword .sourceFilename
  expectMark .equals
  stringLiteral

/-- A line about the target machine, which is dropped. -/
def readTarget : Reading Unit := do
  expectKeyword .target
  if !(← takeIf (.word "datalayout")) then
    if !(← takeIf (.word "triple")) then unexpected .targetEntry
  expectMark .equals
  let _ ← stringLiteral

/-- An opaque type, from its name on. -/
def readOpaqueType : Reading String := do
  let name ← localName
  expectMark .equals
  expectKeyword .typeWord
  if ← takeIf (.keyword .opaqueWord) then return name else unsupported .structType

/-- Takes one alignment, if there is one. -/
def skipAlignment (_ : Unit) : Reading (Unit ⊕ Unit) := do
  if ← takeIf (.mark .comma) then
    if !(← takeIf (.word "align")) then unexpected .align
    let _ ← integer
    return .inl ()
  else return .inr ()

/-- Takes the alignments after a global string. -/
def skipAlignments : Reading Unit :=
  loop .align skipAlignment ()

/-- The bytes of a global string, as many as its type says. -/
def readBytes (length : UInt64) : Reading (List UInt8) := do
  match ← peek? with
  | some (.bytes bytes) =>
    if bytes.length ≠ length.toNat then unsupported (.stringLength bytes.length length)
    advance
    return bytes
  | _ => unsupported .globalInitializer

/-- A global string, from its name on. -/
def readGlobal : Reading GlobalString := do
  let name ← globalName
  expectMark .equals
  skipWords fun _ => true
  if !(← takeIf (.keyword .constant)) then
    if !(← takeIf (.keyword .global)) then unexpected .constantOrGlobal
  let start ← here
  match ← Ty.read with
  | .array length (.int 8) =>
    let bytes ← readBytes length
    skipAlignments
    return { name, bytes }
  | ty => unsupportedAt start (.globalOf ty)

/-- Takes a keyword attribute: a word, and its arguments or its value. -/
def skipKeyword : Reading Unit := do
  advance
  if ← takeIf (.mark .leftParen) then skipToParen
  else if ← takeIf (.mark .equals) then advance

/-- A keyword attribute as it is written, from its first word to the end of its
arguments or of its value. -/
def readKeyword (text : List Char) : Reading Attribute := do
  let before ← rest
  skipKeyword
  let after ← rest
  let start := (before.head?.map fun token => token.span.start).getD 0
  return .keyword (Source.slice text ⟨start, stopOfTaken before after⟩)

/-- One more attribute of a group, or its closing brace. -/
def readAttribute (text : List Char) (attributes : List Attribute) :
    Reading (List Attribute ⊕ List Attribute) := do
  match ← peek? with
  | some (.mark .rightBrace) =>
    advance
    return .inr attributes
  | some (.string _) => return .inl (attributes ++ [← Attribute.readQuoted])
  | some (.word _) => return .inl (attributes ++ [← readKeyword text])
  | _ => unexpected .attributeEntry

/-- The attributes of a group up to its closing brace. -/
def readAttributes (text : List Char) : Reading (List Attribute) :=
  loop .attributeEntry (readAttribute text) []

/-- An attribute group, from its keyword on. -/
def readGroup (text : List Char) : Reading (UInt32 × List Attribute) := do
  expectKeyword .attributes
  match ← peek? with
  | some (.attrGroup number) =>
    advance
    expectMark .equals
    expectMark .leftBrace
    return (number, ← readAttributes text)
  | _ => unexpected .groupNumber

/-- One entity of a module, added to what has been read so far. -/
def readEntity (text : List Char) (draft : Draft) : Reading Draft := do
  let start ← here
  match ← peek? with
  | some (.keyword .sourceFilename) => return { draft with source := some (← readSource) }
  | some (.keyword .target) =>
    readTarget
    return draft
  | some (.localName _) =>
    return { draft with opaqueTypes := draft.opaqueTypes ++ [← readOpaqueType] }
  | some (.globalName _) =>
    let global ← readGlobal
    if draft.globals.any fun other => other.name = global.name then
      failAt start (.redefinition (.global global.name))
    return { draft with globals := draft.globals ++ [global] }
  | some (.keyword .declare) | some (.keyword .define) =>
    return { draft with functions := draft.functions ++ [← Function.read] }
  | some (.keyword .attributes) =>
    let group ← readGroup text
    if draft.groups.any fun other => other.1 = group.1 then
      failAt start (.redefinition (.group group.1))
    return { draft with groups := draft.groups ++ [group] }
  | _ => unexpected .topLevel

/-- One more entity, unless the text ends. -/
def readNextEntity (text : List Char) (draft : Draft) : Reading (Draft ⊕ Draft) := do
  if (← peek?).isNone then return .inr draft
  else return .inl (← readEntity text draft)

/-- All entities of a module. -/
def readEntities (text : List Char) : Reading Draft :=
  loop .topLevel (readNextEntity text) ⟨none, [], [], [], []⟩

/-- The attributes of a group. -/
def findGroup (groups : List (UInt32 × List Attribute)) (reference : UInt32 × Place) :
    Except Fault (List Attribute) :=
  match groups.lookup reference.1 with
  | some attributes => .ok attributes
  | none => .error ⟨reference.2, .undefinedGroup reference.1⟩

/-- A function with the contents of the groups it refers to before its own attributes. -/
def resolve (groups : List (UInt32 × List Attribute))
    (entry : Function × List (UInt32 × Place)) : Except Fault Function := do
  let found ← entry.2.mapM (findGroup groups)
  return { entry.1 with attributes := found.flatten ++ entry.1.attributes }

/-- The tokens of a text, or a fault at the first piece that is none. -/
def placeTokens : List Lexeme → Except Fault (List PlacedToken)
  | [] => return []
  | .token token span :: rest => return ⟨token, span⟩ :: (← placeTokens rest)
  | .invalid text span :: _ => throw ⟨some span.start, .invalidToken text⟩

/-- The module that a text without metadata lines spells. -/
def readText (text : List Char) : Except Fault Module := do
  let tokens ← placeTokens (Lexeme.scan text)
  let (draft, _) ← readEntities text ⟨tokens, 0⟩
  return {
    name := Source.moduleName text
    source := draft.source
    opaqueTypes := draft.opaqueTypes
    globals := draft.globals
    functions := ← draft.functions.mapM (resolve draft.groups) }

/-- A fault with its place as a line and a column. -/
def locate (text : List Char) (fault : Fault) : ParseError :=
  ⟨Position.ofOffset text (fault.place.getD (Text.byteCount text)), fault.cause⟩

/-- The module that a text spells. -/
def parse (source : String) : Except ParseError Module :=
  let text := Source.blankMetadata source.toList
  (readText text).mapError (locate text)

end Module

end QuantumIR
