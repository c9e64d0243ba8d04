import QuantumIR.Reading.Error
import QuantumIR.Text.Numeral

/-!
Reading a row of tokens from left to right. A reading step takes tokens off the
front or fails; a failure remembers the token it is about. Readings that repeat do
so only as long as they take tokens, so all of them end.
-/

namespace QuantumIR

/-- A token with its place in the source text. -/
structure PlacedToken where
  token : Token
  span : Span
  deriving DecidableEq, Repr, Inhabited

/-- A byte offset, or `none` for the end of the text. -/
abbrev Place := Option Nat

/-- A failure before its place is known as a line and a column. -/
structure Fault where
  place : Place
  cause : ParseCause
  deriving DecidableEq, Repr, Inhabited

/-- The tokens still to be taken, and the number of the next unnamed value or block
of the function that is being read. -/
structure ReadState where
  rest : List PlacedToken
  next : Nat
  deriving DecidableEq, Repr, Inhabited

/-- A reading step. -/
abbrev Reading (α : Type) := StateT ReadState (Except Fault) α

namespace Reading

/-- Fails at a place. -/
def failAt (place : Place) (cause : ParseCause) : Reading α := fun _ =>
  .error ⟨place, cause⟩

/-- The tokens still to be taken. -/
def rest : Reading (List PlacedToken) := fun state =>
  .ok (state.rest, state)

/-- The next token. -/
def peek? : Reading (Option Token) := do
  return (← rest).head?.map PlacedToken.token

/-- The token after the next one. -/
def peekSecond? : Reading (Option Token) := do
  return (← rest).tail.head?.map PlacedToken.token

/-- The place of the next token. -/
def here : Reading Place := do
  return (← rest).head?.map fun token => token.span.start

/-- Takes the next token, if there is one. -/
def advance : Reading Unit := fun state =>
  .ok ((), { state with rest := state.rest.tail })

/-- Fails at the next token, or at the end of the text, because something else is expected. -/
def unexpected (expected : Expected) : Reading α := do
  match ← peek? with
  | some token => failAt (← here) (.unexpected expected (.token token))
  | none => failAt (← here) (.unexpectedEnd expected)

/-- Fails at a place because of a construct that is not read. -/
def unsupportedAt (place : Place) (construct : Construct) : Reading α :=
  failAt place (.unsupported construct)

/-- Fails at the next token because of a construct that is not read. -/
def unsupported (construct : Construct) : Reading α := do
  unsupportedAt (← here) construct

/-- Whether the next token is a given one. -/
def isNext (token : Token) : Reading Bool := do
  return (← peek?) = some token

/-- Takes a given token if it is the next one, and tells whether it was. -/
def takeIf (token : Token) : Reading Bool := do
  if ← isNext token then
    advance
    return true
  else return false

/-- Takes a given token. -/
def expect (token : Token) : Reading Unit := do
  if !(← takeIf token) then unexpected (.token token)

def expectMark (mark : Mark) : Reading Unit := expect (.mark mark)

def expectKeyword (word : Keyword) : Reading Unit := expect (.keyword word)

def integer : Reading Int64 := do
  match ← peek? with
  | some (.integer n) =>
    advance
    return n
  | _ => unexpected .integer

def stringLiteral : Reading String := do
  match ← peek? with
  | some (.string text) =>
    advance
    return text
  | _ => unexpected .stringLiteral

def localName : Reading String := do
  match ← peek? with
  | some (.localName name) =>
    advance
    return name
  | _ => unexpected .localName

def globalName : Reading String := do
  match ← peek? with
  | some (.globalName name) =>
    advance
    return name
  | _ => unexpected .globalName

/-- Takes an integer if one is next. -/
def skipInteger : Reading Unit := do
  match ← peek? with
  | some (.integer _) => advance
  | _ => return ()

/-- Whether a token is a word that a test accepts. -/
def isWord (accept : String → Bool) : Token → Bool
  | .word text => accept text
  | _ => false

/-- Takes all words up to the first token that is another or that a test refuses. -/
def skipWords (accept : String → Bool) : Reading Unit := fun state =>
  .ok ((), { state with rest := state.rest.dropWhile fun token => isWord accept token.token })

/-- The tokens after the parenthesis that closes `depth` open ones. -/
def afterParens (depth : Nat) : List PlacedToken → Option (List PlacedToken)
  | [] => none
  | token :: rest =>
    if token.token = .mark .leftParen then afterParens (depth + 1) rest
    else if token.token = .mark .rightParen then
      match depth with
      | 0 | 1 => some rest
      | depth + 1 => afterParens depth rest
    else afterParens depth rest

/-- Takes everything up to the parenthesis that closes the one just taken. -/
def skipToParen : Reading Unit := fun state =>
  match afterParens 1 state.rest with
  | some rest => .ok ((), { state with rest })
  | none => .error ⟨none, .unexpectedEnd (.token (.mark .rightParen))⟩

/-- Repeats a step until it gives a result. A step that goes on without taking a token
has found nothing to read, so it ends the repetition. -/
def loop (expected : Expected) (step : σ → Reading (σ ⊕ α)) (s : σ) (state : ReadState) :
    Except Fault (α × ReadState) :=
  match step s state with
  | .error fault => .error fault
  | .ok (.inr a, after) => .ok (a, after)
  | .ok (.inl s, after) =>
    if after.rest.length < state.rest.length then loop expected step s after
    else unexpected expected after
termination_by state.rest.length

/-- One more item, and the comma after it if more are to come. -/
def readItem (item : Reading α) (items : List α) : Reading (List α ⊕ List α) := do
  let items := items ++ [← item]
  if ← takeIf (.mark .comma) then return .inl items else return .inr items

/-- Items between commas, at least one. -/
def commaSeparated (expected : Expected) (item : Reading α) : Reading (List α) :=
  loop expected (readItem item) []

/-- Arguments or parameters: any number of items in parentheses. -/
def parenthesized (item : Reading α) : Reading (List α) := do
  expectMark .leftParen
  if ← takeIf (.mark .rightParen) then return []
  let items ← commaSeparated .ty item
  expectMark .rightParen
  return items

/-- The number for something without a name. -/
def freshNumber : Reading String := fun state =>
  .ok (toString state.next, { state with next := state.next + 1 })

/-- Keeps the numbers for things without a name past a name that is a number. -/
def observe (name : String) : Reading Unit := fun state =>
  match Text.count? name.toList with
  | some n => .ok ((), { state with next := max state.next (n + 1) })
  | none => .ok ((), state)

/-- Starts the numbers over. -/
def restartNumbers : Reading Unit := fun state =>
  .ok ((), { state with next := 0 })

/-- Where the last of the tokens stops that are in `before` but no longer in `after`. -/
def stopOfTaken (before after : List PlacedToken) : Nat :=
  ((before.take (before.length - after.length)).getLast?.map fun token => token.span.stop).getD 0

end Reading

end QuantumIR
