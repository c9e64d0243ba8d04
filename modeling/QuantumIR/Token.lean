import QuantumIR.Double.Notation

/-!
The tokens of the textual IR. Words with a meaning of their own and punctuation
marks are told apart by what they are; all other tokens carry what they spell.
-/

namespace QuantumIR

/-- A word with a meaning of its own. -/
inductive Keyword where
  | define | declare | typeWord | opaqueWord | attributes | sourceFilename | target
  | void | double | ptr | label | null | trueWord | falseWord
  | call | ret | br | icmp | select | inttoptr | getelementptr | toWord | x | constant | global
  deriving DecidableEq, Repr, Inhabited

namespace Keyword

def all : List Keyword :=
  [define, declare, typeWord, opaqueWord, attributes, sourceFilename, target, void, double, ptr,
   label, null, trueWord, falseWord, call, ret, br, icmp, select, inttoptr, getelementptr, toWord,
   x, constant, global]

def text : Keyword → String
  | define => "define"
  | declare => "declare"
  | typeWord => "type"
  | opaqueWord => "opaque"
  | attributes => "attributes"
  | sourceFilename => "source_filename"
  | target => "target"
  | void => "void"
  | double => "double"
  | ptr => "ptr"
  | label => "label"
  | null => "null"
  | trueWord => "true"
  | falseWord => "false"
  | call => "call"
  | ret => "ret"
  | br => "br"
  | icmp => "icmp"
  | select => "select"
  | inttoptr => "inttoptr"
  | getelementptr => "getelementptr"
  | toWord => "to"
  | x => "x"
  | constant => "constant"
  | global => "global"

def ofText? (text : String) : Option Keyword :=
  all.find? fun keyword => keyword.text = text

end Keyword

/-- A punctuation mark. -/
inductive Mark where
  | equals | comma | star | leftParen | rightParen | leftBracket | rightBracket
  | leftBrace | rightBrace | ellipsis
  deriving DecidableEq, Repr, Inhabited

namespace Mark

def text : Mark → String
  | equals => "="
  | comma => ","
  | star => "*"
  | leftParen => "("
  | rightParen => ")"
  | leftBracket => "["
  | rightBracket => "]"
  | leftBrace => "\x7b"
  | rightBrace => "\x7d"
  | ellipsis => "..."

/-- The mark that a single character is. -/
def ofChar? : Char → Option Mark
  | '=' => some equals
  | ',' => some comma
  | '*' => some star
  | '(' => some leftParen
  | ')' => some rightParen
  | '[' => some leftBracket
  | ']' => some rightBracket
  | '\x7b' => some leftBrace
  | '\x7d' => some rightBrace
  | _ => none

end Mark

/-- A token. -/
inductive Token where
  | keyword (word : Keyword)
  | mark (mark : Mark)
  /-- An integer type such as `i64`. -/
  | intType (width : UInt32)
  | integer (value : Int64)
  | float (value : Double)
  | string (text : String)
  /-- A string of bytes such as `c"r0\00"`. -/
  | bytes (bytes : List UInt8)
  /-- A name after `%`. -/
  | localName (name : String)
  /-- A name after `@`. -/
  | globalName (name : String)
  /-- An attribute group such as `#0`. -/
  | attrGroup (number : UInt32)
  /-- A name after `!`. -/
  | metadata (name : String)
  /-- A name before a colon. -/
  | labelDef (name : String)
  | word (text : String)
  deriving DecidableEq, Repr, Inhabited

/-- A token as messages name it. Names and strings appear without quotes and escapes. -/
def Token.text : Token → String
  | keyword k => k.text
  | mark m => m.text
  | intType width => "i" ++ toString width.toNat
  | integer value => toString value.toInt
  | float value => DoubleNotation.plain.format value
  | string s => "\"" ++ s ++ "\""
  | bytes _ => "c\"...\""
  | localName name => "%" ++ name
  | globalName name => "@" ++ name
  | attrGroup number => "#" ++ toString number.toNat
  | metadata name => "!" ++ name
  | labelDef name => name ++ ":"
  | word w => w

/-- A range of bytes in a source text. -/
structure Span where
  start : Nat
  stop : Nat
  deriving DecidableEq, Repr, Inhabited

/-- A piece of a source text between blanks and comments: a token, or characters
that spell none. -/
inductive Lexeme where
  | token (token : Token) (span : Span)
  | invalid (text : String) (span : Span)
  deriving DecidableEq, Repr, Inhabited

end QuantumIR
