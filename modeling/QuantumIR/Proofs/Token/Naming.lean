import QuantumIR.Proofs.Token.Names

/-!
What is written between quotes or as a name is read back: bytes as the same bytes, and a name after
a sigil or before a colon as one token with that name, from the first byte to the last. So no two
names are written alike.
-/

namespace QuantumIR.Lexeme

open Text

/-- A text is one token from its first byte to its last. -/
def IsToken (text : List Char) (token : Token) : Prop :=
  scan text = [.token token ⟨0, byteCount text⟩]

theorem IsPiece.isToken {after : List Char → Prop} {text : List Char} {token : Token}
    (h : IsPiece after text (some token)) : IsToken text token := by
  rw [IsToken, scan, h.scanFrom_eq, ofCut, Nat.zero_add]

/-- A text is one token at most. -/
theorem IsToken.eq {text : List Char} {token other : Token} (h : IsToken text token)
    (hother : IsToken text other) : other = token :=
  (Lexeme.token.inj (List.cons.inj (hother.symm.trans h)).1).1

theorem isToken_localName (name : String) :
    IsToken ("%" ++ formatName name).toList (.localName name) := by
  rw [String.toList_append]
  exact (isSigil_percent.isPiece name).isToken

theorem isToken_globalName (name : String) :
    IsToken ("@" ++ formatName name).toList (.globalName name) := by
  rw [String.toList_append]
  exact (isSigil_at.isPiece name).isToken

theorem isToken_labelDef (name : String) :
    IsToken (formatName name ++ ":").toList (.labelDef name) :=
  (isPiece_labelDef name).isToken

/-- Names that are written alike are the same. -/
theorem formatName_injective : Function.Injective formatName := by
  intro name other h
  have htoken := isToken_localName other
  rw [← h] at htoken
  exact Token.localName.inj (htoken.eq (isToken_localName name))

/-- Bytes and names survive being written. Between quotes stands printable ASCII without a quote,
and it is read as the bytes it was written for. A name makes one token after a sigil and before a
colon, whatever characters it has, and it is the only name that is written so. -/
theorem read_written (bytes : List UInt8) (name : String) :
    (unescape? (escape bytes).toList = some bytes ∧
      ∀ c ∈ (escape bytes).toList, ' ' ≤ c ∧ c ≤ '~' ∧ c ≠ '"') ∧
    (IsToken ("%" ++ formatName name).toList (.localName name) ∧
      IsToken ("@" ++ formatName name).toList (.globalName name) ∧
      IsToken (formatName name ++ ":").toList (.labelDef name)) ∧
    ∀ other, formatName other = formatName name → other = name := by
  refine ⟨⟨unescape?_escape bytes, ?_⟩, ⟨?_, ?_, ?_⟩, ?_⟩
  · intro c hc
    exact printable_of_mem_escape hc
  · exact isToken_localName name
  · exact isToken_globalName name
  · exact isToken_labelDef name
  · intro other h
    exact formatName_injective h

end QuantumIR.Lexeme
