/-!
Places in a YAML text. Line breaks of whatever kind count lines, and a column is the
number of characters since the last one.
-/

namespace QuantumIR.Yaml

/-- The blanks inside a line. -/
def isBlank (c : Char) : Bool :=
  c = ' ' || c = '\t'

/-- The line breaks, once all of them that mean no more than a new line are one character. -/
def isBreak (c : Char) : Bool :=
  c ∈ ['\n', '\u2028', '\u2029']

/-- What stands between words. -/
def isGap (c : Char) : Bool :=
  isBlank c || isBreak c

/-- Whether a word ends before a text. -/
def endsWord : List Char → Bool
  | [] => true
  | c :: _ => isGap c

/-- A text in which every plain line break is a single line feed. -/
def unifyBreaks : List Char → List Char
  | [] => []
  | '\r' :: '\n' :: rest => '\n' :: unifyBreaks rest
  | c :: rest => (if c = '\r' || c = '\u0085' then '\n' else c) :: unifyBreaks rest

/-- A place in a text: what is still to be read, and where that begins. -/
structure Cursor where
  rest : List Char
  line : Nat
  column : Nat
  deriving DecidableEq, Repr, Inhabited

namespace Cursor

/-- The start of a text. -/
def start (text : List Char) : Cursor :=
  ⟨text, 0, 0⟩

/-- The place one character further on. -/
def next (cursor : Cursor) : Cursor :=
  match cursor.rest with
  | [] => cursor
  | c :: rest =>
    if isBreak c then ⟨rest, cursor.line + 1, 0⟩ else ⟨rest, cursor.line, cursor.column + 1⟩

/-- The place a number of characters further on. -/
def advance (cursor : Cursor) : Nat → Cursor
  | 0 => cursor
  | count + 1 => cursor.next.advance count

/-- The characters from here on that have a property, and the place after them. -/
def span (cursor : Cursor) (property : Char → Bool) : List Char × Cursor :=
  let text := cursor.rest.takeWhile property
  (text, cursor.advance text.length)

/-- Whether a line that opens or closes a document starts here. -/
def atMark (cursor : Cursor) (mark : String) : Bool :=
  cursor.column = 0 && mark.toList.isPrefixOf cursor.rest &&
    endsWord (cursor.rest.drop mark.length)

/-- Whether a document ends here. -/
def atDocumentMark (cursor : Cursor) : Bool :=
  cursor.atMark "---" || cursor.atMark "..."

end Cursor

end QuantumIR.Yaml
