/-!
Text as UTF-8 bytes. Writing is `utf8`; reading is `decodeLossy`, which takes any
bytes at all and puts one replacement character where a character breaks off.
Byte counts matter on their own, because places in a source text are byte offsets.
-/

namespace QuantumIR.Text

/-- The bytes that spell a text. -/
def utf8 (text : List Char) : List UInt8 :=
  text.flatMap String.utf8EncodeChar

/-- How many bytes spell a text. -/
def byteCount : List Char → Nat
  | [] => 0
  | c :: rest => c.utf8Size + byteCount rest

/-- The longest start of a text that is spelled by at most `count` bytes. -/
def takeBytes (count : Nat) : List Char → List Char
  | [] => []
  | c :: rest => if c.utf8Size ≤ count then c :: takeBytes (count - c.utf8Size) rest else []

/-- A text without its longest start that is spelled by at most `count` bytes. -/
def dropBytes (count : Nat) : List Char → List Char
  | [] => []
  | c :: rest => if c.utf8Size ≤ count then dropBytes (count - c.utf8Size) rest else c :: rest

/-- Stands for bytes that spell no character. -/
def replacement : Char := '\ufffd'

/-- What the first byte of a character of several bytes promises: its own
payload, how many bytes follow, and the range of the first of them. The range
is narrower than that of a continuation byte where it rules out overlong forms,
surrogates and values past the last code point. -/
structure Lead where
  payload : Nat
  following : Nat
  lowest : UInt8
  highest : UInt8

/-- The promise of a first byte, or `none` if no character of several bytes starts with it. -/
def Lead.ofByte? (byte : UInt8) : Option Lead :=
  if 0xC2 ≤ byte ∧ byte ≤ 0xDF then some ⟨byte.toNat - 0xC0, 1, 0x80, 0xBF⟩
  else if byte = 0xE0 then some ⟨0, 2, 0xA0, 0xBF⟩
  else if byte = 0xED then some ⟨0xD, 2, 0x80, 0x9F⟩
  else if 0xE1 ≤ byte ∧ byte ≤ 0xEF then some ⟨byte.toNat - 0xE0, 2, 0x80, 0xBF⟩
  else if byte = 0xF0 then some ⟨0, 3, 0x90, 0xBF⟩
  else if 0xF1 ≤ byte ∧ byte ≤ 0xF3 then some ⟨byte.toNat - 0xF0, 3, 0x80, 0xBF⟩
  else if byte = 0xF4 then some ⟨4, 3, 0x80, 0x8F⟩
  else none

/-- The bytes after a first byte that keep its promise, at most as many as it promises. -/
def Lead.tail (lead : Lead) : List UInt8 → List UInt8
  | [] => []
  | second :: rest =>
    if lead.lowest ≤ second ∧ second ≤ lead.highest then
      second :: (rest.take (lead.following - 1)).takeWhile fun b => 0x80 ≤ b && b ≤ 0xBF
    else []

/-- The character that a first byte and all the bytes it promises spell. -/
def Lead.char (lead : Lead) (tail : List UInt8) : Char :=
  Char.ofNat (tail.foldl (fun value b => value * 64 + (b.toNat - 0x80)) lead.payload)

/-- Reads bytes as UTF-8. A first byte that nothing valid starts with, and a
character that breaks off, each become one replacement character; reading goes
on at the first byte that does not fit. -/
def decodeLossy : List UInt8 → List Char
  | [] => []
  | byte :: rest =>
    if byte < 0x80 then Char.ofNat byte.toNat :: decodeLossy rest
    else
      match Lead.ofByte? byte with
      | none => replacement :: decodeLossy rest
      | some lead =>
        let tail := lead.tail rest
        let char := if tail.length = lead.following then lead.char tail else replacement
        char :: decodeLossy (rest.drop tail.length)
termination_by bytes => bytes.length
decreasing_by all_goals (simp only [List.length_cons, List.length_drop]; omega)

end QuantumIR.Text
