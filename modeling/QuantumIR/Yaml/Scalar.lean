import QuantumIR.Text.Escape
import QuantumIR.Yaml.Cursor

/-!
YAML scalars, which may go on over several lines. Where a line breaks, the blanks
around the break do not count: one break stands for a space, and of several breaks the
first one is left out.
-/

namespace QuantumIR.Yaml

/-- The marks that structure collections in brackets. -/
def isFlowMark (c : Char) : Bool :=
  c ∈ [',', '[', ']', '{', '}']

/-- What a gap between two words of a scalar stands for. -/
def foldGap (gap : List Char) : List Char :=
  match gap.filter isBreak with
  | [] => gap
  | ['\n'] => [' ']
  | '\n' :: more => more
  | breaks => breaks

/-- The characters that an escape of one letter stands for. -/
def letterEscapes : List (Char × Char) :=
  [('0', '\x00'), ('a', '\x07'), ('b', '\x08'), ('t', '\t'), ('\t', '\t'), ('n', '\n'),
   ('v', '\x0b'), ('f', '\x0c'), ('r', '\r'), ('e', '\x1b'), (' ', ' '), ('"', '"'), ('/', '/'),
   ('\\', '\\'), ('N', '\u0085'), ('_', '\u00a0'), ('L', '\u2028'), ('P', '\u2029')]

/-- How many hexadecimal digits follow the letter of an escape. -/
def hexEscapes : List (Char × Nat) :=
  [('x', 2), ('u', 4), ('U', 8)]

/-- The character of a code point that is written in hexadecimal digits. -/
def hexChar? (digits : List Char) : Option Char := do
  let values ← digits.mapM Text.hexValue?
  let code := values.foldl (fun value digit => 16 * value + digit) 0
  if code.isValidChar then some (Char.ofNat code) else none

/-- The character of an escape, from its letter on, and the length of what spells it. -/
def escape? : List Char → Option (Char × Nat)
  | [] => none
  | letter :: rest =>
    match letterEscapes.lookup letter, hexEscapes.lookup letter with
    | some c, _ => some (c, 1)
    | none, some count =>
      if count ≤ rest.length then (hexChar? (rest.take count)).map (·, 1 + count) else none
    | none, none => none

/-- Reads on inside quotes up to the closing one, for as many steps as there are. Between
single quotes a doubled quote stands for one; between double quotes a backslash starts an
escape, also before a line break, which then is no gap. -/
def quotedFrom? (quote : Char) : Nat → Cursor → Option (List Char × Cursor)
  | 0, _ => none
  | steps + 1, cursor =>
    let goOn (text : List Char) (cursor : Cursor) :=
      (quotedFrom? quote steps cursor).map fun (more, after) => (text ++ more, after)
    match cursor.rest with
    | [] => none
    | c :: rest =>
      if c = quote then
        if quote = '\'' && rest.head? = some quote then goOn [quote] (cursor.advance 2)
        else some ([], cursor.next)
      else if c = '\\' && quote = '"' then
        if rest.head?.any isBreak then
          let (gap, after) := (cursor.advance 2).span isGap
          if after.atDocumentMark then none else goOn (gap.filter isBreak) after
        else do
          let (char, length) ← escape? rest
          goOn [char] (cursor.advance (1 + length))
      else if isGap c then
        let (gap, after) := cursor.span isGap
        if after.atDocumentMark then none else goOn (foldGap gap) after
      else goOn [c] cursor.next

/-- A scalar between quotes of one kind, and the place after it. -/
def quoted? (quote : Char) (cursor : Cursor) : Option (List Char × Cursor) :=
  quotedFrom? quote cursor.rest.length cursor.next

/-- The next word of a plain scalar, which a colon ends if a gap follows it. Inside brackets
a mark ends it as well, but a colon must not stand right before one. -/
def plainWord? (flow : Bool) : List Char → Option (List Char)
  | [] => some []
  | c :: rest =>
    if isGap c || (c = ':' && endsWord rest) || (flow && isFlowMark c) then some []
    else if flow && c = ':' && rest.head?.any fun next => isFlowMark next || next = '?' then none
    else (plainWord? flow rest).map (c :: ·)

/-- Whether a tab stands where spaces have to indent a line, in a gap that goes on in a
column. The column does not matter before the first line break. -/
def indentedByTab (indent : Nat) : Option Nat → List Char → Bool
  | _, [] => false
  | column, c :: rest =>
    if isBreak c then indentedByTab indent (some 0) rest
    else
      (c = '\t' && column.any (· < indent)) || indentedByTab indent (column.map (· + 1)) rest

/-- Reads on in a plain scalar after a gap. Tells besides whether a line break stands
between the scalar and the place after it. -/
def plainFrom? (flow : Bool) (indent : Nat) :
    Nat → List Char → Cursor → Option (List Char × Bool × Cursor)
  | 0, _, _ => none
  | steps + 1, gap, cursor => do
    let word ←
      if cursor.atDocumentMark || cursor.rest.head? = some '#' then some []
      else plainWord? flow cursor.rest
    if word.isEmpty then return ([], gap.any isBreak, cursor)
    let text := foldGap gap ++ word
    let (gap, after) := (cursor.advance word.length).span isGap
    if indentedByTab indent none gap then none
    if gap.isEmpty then return (text, false, after)
    if !flow && after.column < indent then return (text, gap.any isBreak, after)
    let (more, broken, after) ← plainFrom? flow indent steps gap after
    return (text ++ more, broken, after)

/-- A plain scalar, whose lines after the first one are indented at least so far unless it
stands inside brackets. -/
def plain? (flow : Bool) (indent : Nat) (cursor : Cursor) :
    Option (List Char × Bool × Cursor) :=
  plainFrom? flow indent (cursor.rest.length + 1) [] cursor

/-- What becomes of the line breaks at the end of a block scalar. -/
inductive Chomping where
  /-- None stays. -/
  | strip
  /-- The last line keeps its own. -/
  | clip
  /-- All stay. -/
  | keep
  deriving DecidableEq, Repr, Inhabited

/-- The marks of chomping. -/
def Chomping.ofChar? : Char → Option Chomping
  | '-' => some .strip
  | '+' => some .keep
  | _ => none

/-- How much deeper than its surroundings a block scalar says that it is indented. -/
def increment? (c : Char) : Option Nat :=
  if '1' ≤ c && c ≤ '9' then some (c.toNat - '0'.toNat) else none

/-- The marks behind the sign of a block scalar, in either order, and what follows them. -/
def blockMarks (text : List Char) : Chomping × Option Nat × List Char :=
  let (chomping, text) := chompingMark text
  let (increment, text) := match text with
    | c :: rest => if (increment? c).isSome then (increment? c, rest) else (none, text)
    | [] => (none, text)
  match chomping, increment with
  | none, some _ =>
    let (chomping, text) := chompingMark text
    (chomping.getD .clip, increment, text)
  | _, _ => (chomping.getD .clip, increment, text)
where
  /-- The mark of chomping, if the text starts with one. -/
  chompingMark (text : List Char) : Option Chomping × List Char :=
    match text with
    | c :: rest => if (Chomping.ofChar? c).isSome then (Chomping.ofChar? c, rest) else (none, text)
    | [] => (none, text)

/-- Passes over empty lines of a block scalar and the indentation of the line after them.
Gives their breaks and the widest indentation. An indentation that is not known yet goes
as far as there are spaces. -/
def blockBreaks? (indent : Option Nat) :
    Nat → Nat → Cursor → Option (List Char × Nat × Cursor)
  | 0, _, _ => none
  | steps + 1, widest, cursor => do
    let spaces := (cursor.rest.takeWhile (· = ' ')).length
    let cursor := cursor.advance (match indent with
      | none => spaces
      | some indent => min spaces (indent - cursor.column))
    let widest := max widest cursor.column
    match cursor.rest with
    | [] => return ([], widest, cursor)
    | c :: _ =>
      if c = '\t' && indent.all (cursor.column < ·) then none
      if isBreak c then
        let (breaks, widest, cursor) ← blockBreaks? indent steps widest cursor.next
        return (c :: breaks, widest, cursor)
      return ([], widest, cursor)

/-- A line of a block scalar and the breaks after it. -/
structure BlockLine where
  text : List Char
  /-- The break that ends the line, unless the text ends there. -/
  ending : List Char
  /-- The breaks of the empty lines after it. -/
  empty : List Char
  deriving DecidableEq, Repr, Inhabited

/-- The lines of a block scalar that is indented so far, and the place after them. -/
def blockLines? (indent : Nat) : Nat → Cursor → Option (List BlockLine × Cursor)
  | 0, _ => none
  | steps + 1, cursor => do
    if cursor.column ≠ indent || cursor.rest.isEmpty then return ([], cursor)
    let (text, after) := cursor.span fun c => !isBreak c
    let ending := after.rest.take 1
    let (empty, _, after) ← blockBreaks? (some indent) (after.rest.length + 1) 0 after.next
    let (lines, after) ← blockLines? indent steps after
    return (⟨text, ending, empty⟩ :: lines, after)

/-- Whether a line keeps the breaks around it. -/
def BlockLine.isSetOff (line : BlockLine) : Bool :=
  line.text.head?.any isBlank

/-- The text of the lines after one. In a folded scalar one break between two lines that
start with a word stands for a space, and of several breaks the first one is left out. -/
def joinLines (folded : Bool) (before : BlockLine) : List BlockLine → List Char × BlockLine
  | [] => ([], before)
  | line :: lines =>
    let joint :=
      if folded && before.ending = ['\n'] && !before.isSetOff && !line.isSetOff then
        if before.empty.isEmpty then [' '] else before.empty
      else before.ending ++ before.empty
    let (text, last) := joinLines folded line lines
    (joint ++ line.text ++ text, last)

/-- The text of a block scalar after the empty lines at its start. -/
def blockText (folded : Bool) (chomping : Chomping) (start : List Char) :
    List BlockLine → List Char
  | [] => if chomping = .keep then start else []
  | line :: lines =>
    let (text, last) := joinLines folded line lines
    start ++ line.text ++ text ++ match chomping with
      | .strip => []
      | .clip => last.ending
      | .keep => last.ending ++ last.empty

/-- A block scalar inside a collection whose content is indented at least so far. Its own
indentation is that of the first line that holds something, unless its marks tell it. -/
def block? (folded : Bool) (level : Nat) (cursor : Cursor) : Option (List Char × Cursor) := do
  let (chomping, increment, rest) := blockMarks cursor.next.rest
  let cursor := cursor.advance (cursor.rest.length - rest.length)
  let (_, cursor) := cursor.span isBlank
  let (_, cursor) :=
    if cursor.rest.head? = some '#' then cursor.span fun c => !isBreak c else ([], cursor)
  if !cursor.rest.head?.all isBreak then none
  let indent := increment.map (level - 1 + ·)
  let (breaks, widest, cursor) ← blockBreaks? indent (cursor.rest.length + 1) 0 cursor.next
  let indent := indent.getD (max widest (max level 1))
  let (lines, cursor) ← blockLines? indent (cursor.rest.length + 1) cursor
  return (blockText folded chomping breaks lines, cursor)

end QuantumIR.Yaml
