import QuantumIR.Proofs.Reading.Attributes

/-!
Where things stand in a text. Lines are found in a table of the bytes that lines start at, and a
part of the text is cut out between two of its bytes. Both can fail, and neither does at a byte
where a character starts or the text ends.
-/

namespace QuantumIR

open Text

namespace Bounded

/-- The bytes after the line breaks of a text that starts at a byte. -/
def startsAfter (start : Nat) : List Char → List Nat
  | [] => []
  | c :: rest =>
    let next := start + c.utf8Size
    if c = '\n' then next :: startsAfter next rest else startsAfter next rest

/-- The bytes that the lines of a text start at. -/
def lineStarts (text : List Char) : List Nat := 0 :: startsAfter 0 text

/-- The line and the column of a byte: the line is the last one that does not start after it. -/
def lineColumn? (starts : List Nat) (offset : Nat) : Option Position :=
  match (starts.takeWhile (· ≤ offset)).length with
  | 0 => none
  | before + 1 => do
    let start ← starts[before]?
    if start ≤ offset then some ⟨before + 1, offset - start + 1⟩ else none

/-- What is left of a text after so many bytes, if these are whole characters of it. -/
def afterBytes? (count : Nat) : List Char → Option (List Char)
  | [] => if count = 0 then some [] else none
  | c :: rest =>
    if count = 0 then some (c :: rest)
    else if c.utf8Size ≤ count then afterBytes? (count - c.utf8Size) rest
    else none

/-- Whether a part of a text can be cut out. -/
def canCut (text : List Char) (span : Span) : Bool :=
  span.start ≤ span.stop && (afterBytes? span.start text).isSome &&
    (afterBytes? span.stop text).isSome

end Bounded

end QuantumIR
