import QuantumIR.Text.Blank
import QuantumIR.Text.Escape
import QuantumIR.Token

/-!
A source text as a whole, before it is cut into tokens: its lines, the metadata
lines that are blanked out, the module name in its first line, and the line and
column of a byte offset.
-/

namespace QuantumIR

/-- A place in a source text. Lines and columns count from one; a column counts bytes. -/
structure Position where
  line : Nat
  column : Nat
  deriving DecidableEq, Repr, Inhabited

namespace Position

/-- The place after one more character. -/
def advance (position : Position) (c : Char) : Position :=
  if c = '\n' then ⟨position.line + 1, 1⟩ else ⟨position.line, position.column + c.utf8Size⟩

/-- The place right after a text. -/
def after (text : List Char) : Position :=
  text.foldl advance ⟨1, 1⟩

/-- The place of a byte offset in a text. -/
def ofOffset (text : List Char) (offset : Nat) : Position :=
  after (Text.takeBytes offset text)

end Position

namespace Source

/-- The lines of a text, each with its line break. -/
def lines : List Char → List (List Char)
  | [] => []
  | c :: rest =>
    if c = '\n' then [c] :: lines rest
    else match lines rest with
      | [] => [[c]]
      | line :: others => (c :: line) :: others

/-- A line of metadata starts with an exclamation mark. -/
def isMetadata (line : List Char) : Bool :=
  (Text.trimStart line).head? = some '!'

/-- A character of a line that is blanked out. Line breaks stay. -/
def blankChar (c : Char) : Char :=
  if c = '\n' ∨ c = '\r' then c else ' '

/-- The text with a space for each character of its metadata lines. -/
def blankMetadata (text : List Char) : List Char :=
  (lines text).flatMap fun line => if isMetadata line then line.map blankChar else line

/-- What comes before the module name in the first line of a text. -/
def headerStart : List Char := "; ModuleID = '".toList

/-- The text between the header's start and the quote at the line's end. -/
def headerInner? (line : List Char) : Option (List Char) :=
  if headerStart.isPrefixOf line then
    let rest := line.drop headerStart.length
    if rest.getLast? = some '\'' then some rest.dropLast else none
  else none

/-- The module name that the first line gives, or the empty name. -/
def moduleName (text : List Char) : String :=
  let line := Text.trim (text.takeWhile (· ≠ '\n'))
  ((headerInner? line).bind Text.unquoted?).getD ""

/-- The characters of a span. -/
def slice (text : List Char) (span : Span) : String :=
  String.ofList (Text.takeBytes (span.stop - span.start) (Text.dropBytes span.start text))

end Source

end QuantumIR
