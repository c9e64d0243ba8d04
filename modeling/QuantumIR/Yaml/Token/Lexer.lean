import QuantumIR.Yaml.Scalar
import QuantumIR.Yaml.Token

/-!
Cutting a YAML text into tokens. Only a colon shows that what stands before it was a key,
so the lexer remembers where a key may have begun and puts the token for it there later.
Such a key must stand on one line and be at most 1024 characters long.
-/

namespace QuantumIR.Yaml

/-- A place where a key may have begun. -/
structure KeyPlace where
  /-- How many tokens come before it. -/
  position : Nat
  line : Nat
  column : Nat
  /-- Whether nothing but a key can stand there. -/
  required : Bool
  deriving DecidableEq, Repr, Inhabited

/-- A lexer in the middle of a text. -/
structure Lexer where
  cursor : Cursor
  tokens : Array Token
  /-- The column in which the content of the innermost block collection may start to be
  indented: one more than its own column, or zero outside all of them. -/
  level : Nat
  /-- The levels of the block collections around it, from the inside. -/
  outerLevels : List Nat
  /-- The key that may have begun inside the innermost brackets. -/
  key : Option KeyPlace
  /-- The keys that may have begun outside them. There is one for each pair of brackets. -/
  outerKeys : List (Option KeyPlace)
  /-- Whether a key may begin here. -/
  keyAllowed : Bool
  deriving DecidableEq, Repr, Inhabited

namespace Lexer

/-- A lexer before the first token of a text. -/
def start (text : List Char) : Lexer :=
  { cursor := .start text, tokens := #[], level := 0, outerLevels := [], key := none,
    outerKeys := [], keyAllowed := true }

/-- Whether the lexer is inside brackets. -/
def inFlow (lexer : Lexer) : Bool :=
  !lexer.outerKeys.isEmpty

/-- Adds a token. -/
def emit (lexer : Lexer) (token : Token) : Lexer :=
  { lexer with tokens := lexer.tokens.push token }

/-- Puts a token before those that come after a number of others. -/
def emitAt (lexer : Lexer) (position : Nat) (token : Token) : Lexer :=
  { lexer with
    tokens := (lexer.tokens.extract 0 position).push token ++ lexer.tokens.extract position }

/-- Adds a token that a number of characters stand for. -/
def mark (lexer : Lexer) (length : Nat) (token : Token) : Lexer :=
  { lexer.emit token with cursor := lexer.cursor.advance length }

/-- Starts a block collection unless the innermost one is in this column already. -/
def indentTo (lexer : Lexer) (column position : Nat) (token : Token) : Lexer :=
  if lexer.inFlow || column < lexer.level then lexer
  else
    { lexer.emitAt position token with
      level := column + 1, outerLevels := lexer.level :: lexer.outerLevels }

/-- Ends the block collections beyond a level. -/
def dedentTo (lexer : Lexer) (level : Nat) : Lexer :=
  if lexer.inFlow then lexer
  else
    let levels := lexer.level :: lexer.outerLevels
    let ended := levels.takeWhile (level < ·)
    let left := levels.dropWhile (level < ·)
    { lexer with
      tokens := lexer.tokens ++ Array.replicate ended.length Token.blockEnd
      level := left.headD 0, outerLevels := left.tail }

/-- Gives up the key that may have begun, unless one had to. -/
def dropKey? (lexer : Lexer) : Option Lexer :=
  if lexer.key.any KeyPlace.required then none else some { lexer with key := none }

/-- Remembers that a key may begin here. -/
def saveKey? (lexer : Lexer) : Option Lexer := do
  if !lexer.keyAllowed then return lexer
  let lexer ← lexer.dropKey?
  let column := lexer.cursor.column
  let required := !lexer.inFlow && lexer.level = column + 1
  return { lexer with key := some ⟨lexer.tokens.size, lexer.cursor.line, column, required⟩ }

/-- Whether what began at a place is too long for a key. -/
def isStale (lexer : Lexer) (place : KeyPlace) : Bool :=
  place.line < lexer.cursor.line || place.column + 1024 < lexer.cursor.column

/-- Gives up the keys that have become too long. None of them may be one that had to be there. -/
def dropStaleKeys? (lexer : Lexer) : Option Lexer :=
  if (lexer.key :: lexer.outerKeys).any fun key =>
      key.any fun place => place.required && lexer.isStale place then none
  else
    let fresh (key : Option KeyPlace) := key.filter fun place => !lexer.isStale place
    some { lexer with key := fresh lexer.key, outerKeys := lexer.outerKeys.map fresh }

/-- Passes over blanks, comments and line breaks, for as many steps as there are. A tab
counts as a blank only where no key may begin. A byte order mark may stand before a line. -/
def skipFrom : Nat → Lexer → Lexer
  | 0, lexer => lexer
  | steps + 1, lexer =>
    match lexer.cursor.rest with
    | [] => lexer
    | c :: _ =>
      if c = ' ' || (c = '\t' && (lexer.inFlow || !lexer.keyAllowed)) ||
          (c = '\uFEFF' && lexer.cursor.column = 0) then
        skipFrom steps { lexer with cursor := lexer.cursor.next }
      else if c = '#' then
        skipFrom steps { lexer with cursor := (lexer.cursor.span fun c => !isBreak c).2 }
      else if isBreak c then
        let keyAllowed := lexer.keyAllowed || !lexer.inFlow
        skipFrom steps { lexer with cursor := lexer.cursor.next, keyAllowed }
      else lexer

/-- The line before or after a document. -/
def documentMark? (lexer : Lexer) (token : Token) : Option Lexer := do
  let lexer ← (lexer.dedentTo 0).dropKey?
  return { lexer.mark 3 token with keyAllowed := false }

/-- An opening bracket. -/
def openFlow? (lexer : Lexer) (token : Token) : Option Lexer := do
  let lexer ← lexer.saveKey?
  return { lexer.mark 1 token with
    key := none, outerKeys := lexer.key :: lexer.outerKeys, keyAllowed := true }

/-- A closing bracket. -/
def closeFlow? (lexer : Lexer) (token : Token) : Option Lexer := do
  let lexer ← lexer.dropKey?
  return { lexer.mark 1 token with
    key := lexer.outerKeys.headD none, outerKeys := lexer.outerKeys.tail, keyAllowed := false }

/-- A comma between items. -/
def flowEntry? (lexer : Lexer) : Option Lexer := do
  let lexer ← lexer.dropKey?
  return { lexer.mark 1 .flowEntry with keyAllowed := true }

/-- The block collection that a dash, a question mark or a colon belongs to. -/
def blockStart? (lexer : Lexer) (token : Token) : Option Lexer :=
  if lexer.inFlow then some lexer
  else if lexer.keyAllowed then
    some (lexer.indentTo lexer.cursor.column lexer.tokens.size token)
  else none

/-- A dash before an item. -/
def blockEntry? (lexer : Lexer) : Option Lexer := do
  let lexer ← (← lexer.blockStart? .blockSequenceStart).dropKey?
  return { lexer.mark 1 .blockEntry with keyAllowed := true }

/-- A question mark before a key. -/
def explicitKey? (lexer : Lexer) : Option Lexer := do
  let lexer ← (← lexer.blockStart? .blockMappingStart).dropKey?
  return { lexer.mark 1 .key with keyAllowed := !lexer.inFlow }

/-- A colon before a value. If a key may have begun, it has. -/
def value? (lexer : Lexer) : Option Lexer := do
  match lexer.key with
  | some place =>
    let lexer := lexer.emitAt place.position .key
    let lexer := lexer.indentTo place.column place.position .blockMappingStart
    return { lexer.mark 1 .value with key := none, keyAllowed := false }
  | none =>
    let lexer ← lexer.blockStart? .blockMappingStart
    return { lexer.mark 1 .value with keyAllowed := !lexer.inFlow }

/-- Adds a scalar. -/
def scalar (lexer : Lexer) (isPlain : Bool) (text : List Char) (cursor : Cursor)
    (keyAllowed : Bool) : Lexer :=
  { lexer.emit (.scalar isPlain (String.ofList text)) with cursor, keyAllowed }

/-- A scalar between quotes. -/
def quotedScalar? (lexer : Lexer) (quote : Char) : Option Lexer := do
  let lexer ← lexer.saveKey?
  let (text, cursor) ← quoted? quote lexer.cursor
  return lexer.scalar false text cursor false

/-- A scalar without quotes. A key may begin on the line after it. -/
def plainScalar? (lexer : Lexer) : Option Lexer := do
  let lexer ← lexer.saveKey?
  let (text, broken, cursor) ← plain? lexer.inFlow lexer.level lexer.cursor
  return lexer.scalar true text cursor broken

/-- A scalar that is set off by its indentation. -/
def blockScalar? (lexer : Lexer) (folded : Bool) : Option Lexer := do
  let lexer ← lexer.dropKey?
  let (text, cursor) ← block? folded lexer.level lexer.cursor
  return lexer.scalar false text cursor true

/-- Whether a plain scalar can start with a character before others. -/
def startsPlain (lexer : Lexer) (c : Char) (rest : List Char) : Bool :=
  if c = '-' then !rest.head?.any isBlank
  else if c ∈ ['?', ':'] then !lexer.inFlow && !endsWord rest
  else
    !isGap c && !isFlowMark c &&
      c ∉ ['#', '&', '*', '!', '|', '>', '\'', '"', '%', '@', '\x60']

/-- Takes the next token, which starts with a character before others. Directives, tags,
anchors and what refers to them are not read. -/
def next? (lexer : Lexer) (c : Char) (rest : List Char) : Option Lexer :=
  let isMark := lexer.inFlow || endsWord rest
  if lexer.cursor.atMark "---" then lexer.documentMark? .documentStart
  else if lexer.cursor.atMark "..." then lexer.documentMark? .documentEnd
  else if c = '[' then lexer.openFlow? .flowSequenceStart
  else if c = '{' then lexer.openFlow? .flowMappingStart
  else if c = ']' then lexer.closeFlow? .flowSequenceEnd
  else if c = '}' then lexer.closeFlow? .flowMappingEnd
  else if c = ',' then lexer.flowEntry?
  else if c = '-' && endsWord rest then lexer.blockEntry?
  else if c = '?' && isMark then lexer.explicitKey?
  else if c = ':' && isMark then lexer.value?
  else if c ∈ ['|', '>'] && !lexer.inFlow then lexer.blockScalar? (c = '>')
  else if c ∈ ['\'', '"'] then lexer.quotedScalar? c
  else if lexer.startsPlain c rest then lexer.plainScalar?
  else none

/-- Takes all tokens, for as many steps as there are. -/
def runFrom : Nat → Lexer → Option (List Token)
  | 0, _ => none
  | steps + 1, lexer => do
    let lexer := skipFrom (lexer.cursor.rest.length + 1) lexer
    let lexer := (← lexer.dropStaleKeys?).dedentTo (lexer.cursor.column + 1)
    match lexer.cursor.rest with
    | [] =>
      let lexer ← (lexer.dedentTo 0).dropKey?
      return lexer.tokens.toList
    | c :: rest => runFrom steps (← lexer.next? c rest)

end Lexer

/-- The tokens of a text. -/
def tokens? (text : List Char) : Option (List Token) :=
  Lexer.runFrom (text.length + 1) (.start text)

end QuantumIR.Yaml
