import QuantumIR.Token
import QuantumIR.Double.Decimal

/-!
Cutting a source text into tokens. Quoted forms go to the next quote. Everything
else starts from a run, the longest row of name characters: a run before a colon is
a label, a run that is one token from end to end is that token, and any other run
is an error as a whole. A number whose run stops short of an exponent or of sixteen
hexadecimal digits is the one exception: there the number stands by itself.
-/

namespace QuantumIR

/-- What stands at the start of a text: so many characters, and the token they spell if any. -/
structure Cut where
  length : Nat
  token? : Option Token

namespace Cut

/-- Nothing to cut. -/
def nothing : Cut := ⟨0, none⟩

/-- White space between tokens. -/
def isSpace (c : Char) : Bool :=
  c = ' ' || c = '\t' || c = '\r' || c = '\n'

/-- The characters of a word. -/
def isWordChar (c : Char) : Bool :=
  Text.isLetter c || Text.isDigit c || c = '_' || c = '.'

def isHexDigit (c : Char) : Bool :=
  (Text.hexValue? c).isSome

/-- A quoted form: `before` characters, the opening quote, and `rest` after it. It
goes to the next quote, or to the end of the text if there is none. -/
def quoted (before : Nat) (rest : List Char) (make : List Char → Option Token) : Cut :=
  let inner := rest.takeWhile (· ≠ '"')
  if inner.length < rest.length then ⟨before + inner.length + 2, make inner⟩
  else ⟨before + 1 + rest.length, none⟩

/-- A string, or a quoted label if a colon follows the closing quote. -/
def stringOrLabel (rest : List Char) : Cut :=
  let inner := rest.takeWhile (· ≠ '"')
  if (rest.drop (inner.length + 1)).head? = some ':' then
    ⟨inner.length + 3, (Text.unquoted? inner).map Token.labelDef⟩
  else quoted 0 rest fun inner => (Text.unquoted? inner).map Token.string

/-- A name after a sigil. A sigil by itself is an error. -/
def named (rest : List Char) (make : String → Token) : Cut :=
  let name := rest.takeWhile Text.isNameChar
  if name.isEmpty then ⟨1, none⟩ else ⟨1 + name.length, some (make (String.ofList name))⟩

/-- A number that fits a word of 32 bits. -/
def word32? (digits : List Char) : Option UInt32 := do
  let value ← Text.digits? digits
  if value < UInt32.size then some (UInt32.ofNat value) else none

/-- An attribute group number after its sigil. -/
def group (rest : List Char) : Cut :=
  let digits := rest.takeWhile Text.isDigit
  if digits.isEmpty then ⟨1, none⟩ else ⟨1 + digits.length, (word32? digits).map Token.attrGroup⟩

/-- What a word means: an integer type, a keyword, or just itself. -/
def wordToken? (text : List Char) : Option Token :=
  match text with
  | 'i' :: d :: digits =>
    if (d :: digits).all Text.isDigit then (word32? (d :: digits)).map Token.intType
    else some (ofWord text)
  | _ => some (ofWord text)
where
  /-- A keyword or a plain word. -/
  ofWord (text : List Char) : Token :=
    let word := String.ofList text
    match Keyword.ofText? word with
    | some keyword => .keyword keyword
    | none => .word word

/-- The length of an exponent with its letter, or 0 if there is none. -/
def exponentLength (text : List Char) : Nat :=
  match text with
  | e :: rest =>
    if e = 'e' ∨ e = 'E' then
      let sign := match rest with
        | '-' :: _ | '+' :: _ => 1
        | _ => 0
      let digits := (rest.drop sign).takeWhile Text.isDigit
      if digits.isEmpty then 0 else 1 + sign + digits.length
    else 0
  | [] => 0

/-- The length of the sign and the digits at the start of a number, or 0 if there are no digits. -/
def wholeLength (text : List Char) : Nat :=
  let sign := if text.head? = some '-' then 1 else 0
  let digits := (text.drop sign).takeWhile Text.isDigit
  if digits.isEmpty then 0 else sign + digits.length

/-- The length of a point and the digits after it, or 0 if there is no point. -/
def fractionLength (text : List Char) : Nat :=
  match text with
  | '.' :: rest => 1 + (rest.takeWhile Text.isDigit).length
  | _ => 0

/-- The double that `0x` and sixteen hexadecimal digits give by its bits. -/
def bitsOfHex? (text : List Char) : Option Double :=
  match text with
  | '0' :: 'x' :: rest => do
    let digits ← (rest.take 16).mapM Text.hexValue?
    if digits.length = 16 then
      some ⟨UInt64.ofNat (digits.foldl (fun value d => 16 * value + d) 0)⟩
    else none
  | _ => none

/-- The longest number at the start of a text. -/
def number (text : List Char) : Cut :=
  let whole := wholeLength text
  if whole = 0 then nothing
  else
    match bitsOfHex? text with
    | some x => ⟨18, some (.float x)⟩
    | none =>
      let fraction := fractionLength (text.drop whole)
      let exponent := exponentLength (text.drop (whole + fraction))
      let length := whole + fraction + exponent
      if fraction = 0 ∧ exponent = 0 then
        ⟨length, (Text.word64? (text.take length)).map Token.integer⟩
      else ⟨length, some (.float (Double.readDecimal (text.take length)))⟩

/-- The longest token other than a label at the start of a run. -/
def longest (text : List Char) : Cut :=
  match text with
  | [] => nothing
  | c :: _ =>
    if Text.isLetter c ∨ c = '_' then
      let word := text.takeWhile isWordChar
      ⟨word.length, wordToken? word⟩
    else if c = '.' then
      if text.take 3 = ['.', '.', '.'] then ⟨3, some (.mark .ellipsis)⟩ else nothing
    else number text

/-- A run that is a number up to an exponent without digits, or up to too few
hexadecimal digits. -/
def breaksOff (run : List Char) : Bool :=
  let whole := wholeLength run
  let fraction := fractionLength (run.drop whole)
  let rest := run.drop (whole + fraction)
  (0 < whole && (rest = ['e'] || rest = ['E'])) ||
    match run with
    | '0' :: 'x' :: digits => digits.length ≤ 15 && digits.all isHexDigit
    | _ => false

/-- What stands at the start of a run. -/
def run (text : List Char) : Cut :=
  let run := text.takeWhile Text.isNameChar
  if run.isEmpty then ⟨1, none⟩
  else if (text.drop run.length).head? = some ':' then
    ⟨run.length + 1, some (.labelDef (String.ofList run))⟩
  else
    let cut := longest text
    if run.length ≤ cut.length ∨ breaksOff run then cut else ⟨run.length, none⟩

/-- What a quoted form means after a character that may stand before its opening quote. -/
def quotes? : Char → Option (List Char → Option Token)
  | 'c' => some fun text => (Text.unescape? text).map Token.bytes
  | '%' => some fun text => (Text.unquoted? text).map Token.localName
  | '@' => some fun text => (Text.unquoted? text).map Token.globalName
  | _ => none

/-- A name after an exclamation mark. -/
def metadata (rest : List Char) : Cut :=
  let name := rest.takeWhile Text.isNameChar
  ⟨1 + name.length, some (.metadata (String.ofList name))⟩

/-- What stands at the start of a text that begins with no quoted form. -/
def bare (c : Char) (rest : List Char) : Cut :=
  match c with
  | '%' => named rest .localName
  | '@' => named rest .globalName
  | '#' => group rest
  | '!' => metadata rest
  | _ =>
    match Mark.ofChar? c with
    | some mark => ⟨1, some (.mark mark)⟩
    | none => run (c :: rest)

/-- What stands at the start of a text that begins with neither white space nor a comment. -/
def first (c : Char) (rest : List Char) : Cut :=
  if c = '"' then stringOrLabel rest
  else match quotes? c, rest with
    | some make, '"' :: inner => quoted 1 inner make
    | _, _ => bare c rest

end Cut

/-- The pieces of a text that starts at byte `start`. Each takes at least one character. -/
def Lexeme.scanFrom (start : Nat) (text : List Char) : List Lexeme :=
  match text with
  | [] => []
  | c :: rest =>
    if Cut.isSpace c then scanFrom (start + 1) rest
    else if c = ';' then
      let comment := rest.takeWhile (· ≠ '\n')
      scanFrom (start + 1 + Text.byteCount comment) (rest.drop comment.length)
    else
      let cut := Cut.first c rest
      let piece := c :: rest.take (cut.length - 1)
      let stop := start + Text.byteCount piece
      let lexeme := match cut.token? with
        | some found => Lexeme.token found ⟨start, stop⟩
        | none => Lexeme.invalid (String.ofList piece) ⟨start, stop⟩
      lexeme :: scanFrom stop (rest.drop (cut.length - 1))
termination_by text.length
decreasing_by all_goals (simp only [List.length_cons, List.length_drop]; omega)

/-- The pieces of a text. -/
def Lexeme.scan (text : List Char) : List Lexeme :=
  Lexeme.scanFrom 0 text

end QuantumIR
