import QuantumIR.Proofs.Text.Utf8
import QuantumIR.Text.Escape

/-!
Bytes survive being written between quotes, and so do texts. What is written is printable
ASCII without a quote, so a quoted form ends at its own closing quote and never at one inside.
-/

namespace QuantumIR.Text

theorem hexValue?_hexDigit {n : Nat} (h : n < 16) : hexValue? (hexDigit n) = some n := by
  interval_cases n <;> decide

private theorem hexDigit_ne {n : Nat} (h : n < 16) : hexDigit n ≠ '\\' ∧ hexDigit n ≠ '+' := by
  interval_cases n <;> decide

/-- Two hexadecimal digits spell the byte they were taken from. -/
theorem hexPair?_hexDigit (byte : UInt8) :
    hexPair? (hexDigit (byte.toNat / 16)) (hexDigit (byte.toNat % 16)) = some byte := by
  have hbyte : byte.toNat < 256 := byte.toNat_lt
  have hhigh : byte.toNat / 16 < 16 := by omega
  have hlow : byte.toNat % 16 < 16 := by omega
  have hvalue : 16 * (byte.toNat / 16) + byte.toNat % 16 = byte.toNat := by omega
  rw [hexPair?, if_neg (hexDigit_ne hhigh).2, hexValue?_hexDigit hhigh, hexValue?_hexDigit hlow]
  show some (UInt8.ofNat (16 * (byte.toNat / 16) + byte.toNat % 16)) = some byte
  rw [hvalue, UInt8.ofNat_toNat]

private theorem toNat_ofNat_char {n : Nat} (h : n < 256) : (Char.ofNat n).toNat = n := by
  rw [Char.ofNat, dif_pos (show n.isValidChar from Or.inl (by omega))]
  rfl

private theorem utf8EncodeChar_ascii {n : Nat} (h : n < 0x80) :
    String.utf8EncodeChar (Char.ofNat n) = [UInt8.ofNat n] := by
  have hval : (Char.ofNat n).val.toNat = n := toNat_ofNat_char (by omega)
  rw [String.utf8EncodeChar, hval, if_pos (by omega)]

/-- What a byte is written as: a backslash and two digits, or the byte itself. -/
theorem escapeByte_cases (byte : UInt8) :
    escapeByte byte = ['\\', hexDigit (byte.toNat / 16), hexDigit (byte.toNat % 16)] ∨
      escapeByte byte = [Char.ofNat byte.toNat] ∧ 0x20 ≤ byte.toNat ∧ byte.toNat < 0x7F ∧
        byte.toNat ≠ 0x22 ∧ byte.toNat ≠ 0x5C := by
  unfold escapeByte
  split
  case isTrue h => exact Or.inl rfl
  case isFalse h =>
    simp only [not_or, UInt8.lt_iff_toNat_lt, UInt8.le_iff_toNat_le, ← UInt8.toNat_inj] at h
    obtain ⟨h1, h2, h3, h4⟩ := h
    refine Or.inr ⟨rfl, ?_, ?_, h1, h2⟩
    · simpa using h3
    · simpa using h4

private theorem char_ofNat_ne {n m : Nat} (hn : n < 256) (hm : m < 256) (h : n ≠ m) :
    Char.ofNat n ≠ Char.ofNat m := by
  intro heq
  have := congrArg Char.toNat heq
  rw [toNat_ofNat_char hn, toNat_ofNat_char hm] at this
  exact h this

theorem unescape?_cons (c : Char) (rest : List Char) (h : c ≠ '\\') :
    unescape? (c :: rest) = (unescape? rest).map (String.utf8EncodeChar c ++ ·) := by
  rw [unescape?]
  · rw [if_neg h]
  · intro _ hc
    exact absurd hc h
  · intro _ _ _ hc
    exact absurd hc h

/-- Reading takes one written byte off the front. -/
theorem unescape?_escapeByte (byte : UInt8) (rest : List Char) :
    unescape? (escapeByte byte ++ rest) = (unescape? rest).map (byte :: ·) := by
  rcases escapeByte_cases byte with h | ⟨h, hlow, hhigh, hquote, hslash⟩
  · have hhex : byte.toNat / 16 < 16 := by
      have := byte.toNat_lt
      omega
    rw [h, List.cons_append, List.cons_append, List.cons_append, List.nil_append, unescape?]
    · rw [hexPair?_hexDigit]
      cases unescape? rest <;> rfl
    · intro hdigit
      exact (hexDigit_ne hhex).1 hdigit
  · have hne : Char.ofNat byte.toNat ≠ '\\' :=
      char_ofNat_ne (by omega) (show 0x5C < 256 by omega) hslash
    rw [h, List.cons_append, List.nil_append, unescape?_cons _ _ hne,
      utf8EncodeChar_ascii (by omega), UInt8.ofNat_toNat]
    rfl

/-- Reading undoes writing, for any bytes. -/
theorem unescape?_escape (bytes : List UInt8) :
    unescape? (escape bytes).toList = some bytes := by
  rw [escape, String.toList_ofList]
  induction bytes with
  | nil => rfl
  | cons byte rest ih => rw [List.flatMap_cons, unescape?_escapeByte, ih, Option.map_some]

/-- Reading a text between quotes undoes writing it. -/
theorem unquoted?_escapeText (text : String) :
    unquoted? (escapeText text).toList = some text := by
  rw [unquoted?, escapeText, unescape?_escape, Option.map_some, decodeLossy_utf8,
    String.ofList_toList]

private theorem hexDigit_printable {n : Nat} (h : n < 16) :
    ' ' ≤ hexDigit n ∧ hexDigit n ≤ '~' ∧ hexDigit n ≠ '"' := by
  interval_cases n <;> decide

/-- What is written between quotes is printable ASCII and holds no quote. -/
theorem printable_of_mem_escape {bytes : List UInt8} {c : Char}
    (h : c ∈ (escape bytes).toList) : ' ' ≤ c ∧ c ≤ '~' ∧ c ≠ '"' := by
  rw [escape, String.toList_ofList, List.mem_flatMap] at h
  obtain ⟨byte, -, hc⟩ := h
  have hbyte := byte.toNat_lt
  rcases escapeByte_cases byte with h | ⟨h, hlow, hhigh, hquote, -⟩
  · simp only [h, List.mem_cons, List.not_mem_nil, or_false] at hc
    rcases hc with rfl | rfl | rfl
    · decide
    · exact hexDigit_printable (by omega)
    · exact hexDigit_printable (by omega)
  · rw [h, List.mem_singleton] at hc
    subst hc
    refine ⟨?_, ?_, char_ofNat_ne (by omega) (show 0x22 < 256 by omega) hquote⟩
    · have hchar : (Char.ofNat byte.toNat).toNat = byte.toNat := toNat_ofNat_char hbyte
      rw [Char.le_def, UInt32.le_iff_toNat_le]
      show 32 ≤ (Char.ofNat byte.toNat).toNat
      omega
    · have hchar : (Char.ofNat byte.toNat).toNat = byte.toNat := toNat_ofNat_char hbyte
      rw [Char.le_def, UInt32.le_iff_toNat_le]
      show (Char.ofNat byte.toNat).toNat ≤ 126
      omega

theorem newline_not_mem_escape (bytes : List UInt8) : '\n' ∉ (escape bytes).toList :=
  fun h => absurd (printable_of_mem_escape h).1 (by decide)

end QuantumIR.Text
