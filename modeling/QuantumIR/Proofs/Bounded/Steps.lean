import QuantumIR.Reading.Module

/-!
Bounded reading: the same grammar read by places in a row of tokens, with a limited number of
turns. Each turn of a loop and each call of a reading by itself uses one turn up. A look at a place
outside the row ends the reading, as does a turn too many, and neither is a fault of the text. The
reading sees tokens only. Where the text between tokens matters, it gives the places of the tokens.
-/

namespace QuantumIR

namespace Bounded

/-- What is read: the tokens, and whether the text from the start of one of them to the end of
another can be cut out. -/
structure Row where
  tokens : List Token
  canSlice : Nat → Nat → Bool

/-- The place of the next token, and how many turns are left. -/
structure Cursor where
  place : Nat
  turns : Nat

/-- Why a bounded reading ends early. -/
inductive Stop where
  /-- The tokens spell nothing, and it shows at a place of the row or at its end. -/
  | fault (place : Nat) (cause : ParseCause)
  | outOfTurns
  | outOfBounds

end Bounded

/-- A bounded reading step. -/
abbrev Bounded (α : Type) := ReaderT Bounded.Row (StateT Bounded.Cursor (Except Bounded.Stop)) α

namespace Bounded

variable {α σ : Type}

/-- Ends the reading. -/
def stop (reason : Stop) : Bounded α := fun _ _ => .error reason

def failAt (place : Nat) (cause : ParseCause) : Bounded α := stop (.fault place cause)

/-- The place of the next token. -/
def here : Bounded Nat := fun _ cursor => .ok (cursor.place, cursor)

/-- The token so many places ahead, if the row goes so far. -/
def ahead? (count : Nat) : Bounded (Option Token) := fun row cursor =>
  .ok (row.tokens[cursor.place + count]?, cursor)

def peek? : Bounded (Option Token) := ahead? 0

def peekSecond? : Bounded (Option Token) := ahead? 1

/-- Takes the next token. At the end of the row nothing is taken; anywhere else there has to be a
token. -/
def advance : Bounded Unit := fun row cursor =>
  if row.tokens.length ≤ cursor.place then .ok ((), cursor)
  else match row.tokens[cursor.place]? with
    | some _ => .ok ((), { cursor with place := cursor.place + 1 })
    | none => .error .outOfBounds

/-- The place of the token taken last. -/
def previous : Bounded Nat := fun _ cursor =>
  if cursor.place = 0 then .error .outOfBounds else .ok (cursor.place - 1, cursor)

/-- The places of the tokens from `first` to the one taken last. They have to be tokens, and the
text has to have a part from the one to the other. -/
def sliceFrom (first : Nat) : Bounded (Nat × Nat) := do
  let last ← previous
  fun row cursor =>
    if first < row.tokens.length ∧ last < row.tokens.length ∧ row.canSlice first last then
      .ok ((first, last), cursor)
    else .error .outOfBounds

/-- Uses one turn up. -/
def turn : Bounded Unit := fun _ cursor =>
  match cursor.turns with
  | 0 => .error .outOfTurns
  | turns + 1 => .ok ((), { cursor with turns })

/-- Repeats a step until it gives a result, at most so many times. -/
def loopFor (step : σ → Bounded (σ ⊕ α)) : Nat → σ → Bounded α
  | 0, _ => stop .outOfTurns
  | turns + 1, s => do
    turn
    match ← step s with
    | .inl s => loopFor step turns s
    | .inr a => return a

/-- Repeats a step until it gives a result. -/
def loop (step : σ → Bounded (σ ⊕ α)) (s : σ) : Bounded α := fun row cursor =>
  loopFor step cursor.turns s row cursor

/-- Fails at the next token, or at the end of the row, because something else is expected. -/
def unexpected (expected : Expected) : Bounded α := do
  match ← peek? with
  | some token => failAt (← here) (.unexpected expected (.token token))
  | none => failAt (← here) (.unexpectedEnd expected)

def unsupportedAt (place : Nat) (construct : Construct) : Bounded α :=
  failAt place (.unsupported construct)

def unsupported (construct : Construct) : Bounded α := do
  unsupportedAt (← here) construct

def isNext (token : Token) : Bounded Bool := do
  return (← peek?) = some token

/-- Takes a given token if it is the next one, and tells whether it was. -/
def takeIf (token : Token) : Bounded Bool := do
  if ← isNext token then
    advance
    return true
  else return false

def expect (token : Token) : Bounded Unit := do
  if !(← takeIf token) then unexpected (.token token)

def expectMark (mark : Mark) : Bounded Unit := expect (.mark mark)

def expectKeyword (word : Keyword) : Bounded Unit := expect (.keyword word)

def integer : Bounded Int64 := do
  match ← peek? with
  | some (.integer n) =>
    advance
    return n
  | _ => unexpected .integer

def stringLiteral : Bounded String := do
  match ← peek? with
  | some (.string text) =>
    advance
    return text
  | _ => unexpected .stringLiteral

def localName : Bounded String := do
  match ← peek? with
  | some (.localName name) =>
    advance
    return name
  | _ => unexpected .localName

def globalName : Bounded String := do
  match ← peek? with
  | some (.globalName name) =>
    advance
    return name
  | _ => unexpected .globalName

/-- Takes an integer if one is next. -/
def skipInteger : Bounded Unit := do
  match ← peek? with
  | some (.integer _) => advance
  | _ => return ()

/-- Takes one token if a test accepts it. -/
def skipOne (accept : Token → Bool) (_ : Unit) : Bounded (Unit ⊕ Unit) := do
  match ← peek? with
  | some token =>
    if accept token then
      advance
      return .inl ()
    else return .inr ()
  | none => return .inr ()

/-- Takes all tokens up to the first one that a test refuses. -/
def skipWhile (accept : Token → Bool) : Bounded Unit := loop (skipOne accept) ()

def skipWords (accept : String → Bool) : Bounded Unit := skipWhile (Reading.isWord accept)

/-- One token more inside so many open parentheses. -/
def skipInParens (depth : Nat) : Bounded (Nat ⊕ Unit) := do
  match ← peek? with
  | some token =>
    advance
    if token = .mark .leftParen then return .inl (depth + 1)
    else if token = .mark .rightParen then
      if depth ≤ 1 then return .inr () else return .inl (depth - 1)
    else return .inl depth
  | none => unexpected (.token (.mark .rightParen))

/-- Takes everything up to the parenthesis that closes the one just taken. -/
def skipToParen : Bounded Unit := loop skipInParens 1

/-- One more item, and the comma after it if more are to come. Each item is read with the number
for the next thing without a name. -/
def readItem (item : Nat → Bounded (α × Nat)) (items : List α × Nat) :
    Bounded ((List α × Nat) ⊕ (List α × Nat)) := do
  let (a, number) ← item items.2
  let items := (items.1 ++ [a], number)
  if ← takeIf (.mark .comma) then return .inl items else return .inr items

/-- Arguments or parameters: any number of items in parentheses. -/
def parenthesized (item : Nat → Bounded (α × Nat)) (number : Nat) : Bounded (List α × Nat) := do
  expectMark .leftParen
  if ← takeIf (.mark .rightParen) then return ([], number)
  let items ← loop (readItem item) ([], number)
  expectMark .rightParen
  return items

end Bounded

end QuantumIR
