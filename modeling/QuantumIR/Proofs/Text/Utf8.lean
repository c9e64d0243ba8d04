import Mathlib
import QuantumIR.Text.Utf8

/-!
Text survives its way through UTF-8: decoding the bytes of a text gives the text back, with
no replacement character put in. The argument follows the four lengths of a character and
checks in each that the first byte makes a promise that the following bytes keep.
-/

namespace QuantumIR.Text

/-- What a first byte promises is read off whole if the bytes after it keep the promise. -/
theorem decodeLossy_lead (byte second : UInt8) (more rest : List UInt8) (lead : Lead)
    (hbyte : ¬ byte < 0x80) (hlead : Lead.ofByte? byte = some lead)
    (hlength : more.length + 1 = lead.following)
    (hsecond : lead.lowest ≤ second ∧ second ≤ lead.highest)
    (hmore : ∀ b ∈ more, 0x80 ≤ b ∧ b ≤ 0xBF) :
    decodeLossy (byte :: second :: more ++ rest) =
      lead.char (second :: more) :: decodeLossy rest := by
  have htake : ((more ++ rest).take (lead.following - 1)) = more := by
    rw [← hlength, Nat.add_sub_cancel, List.take_left]
  have hwhile : more.takeWhile (fun b => 0x80 ≤ b && b ≤ 0xBF) = more := by
    rw [List.takeWhile_eq_self_iff]
    intro b hb
    simpa using hmore b hb
  have htail : lead.tail (second :: more ++ rest) = second :: more := by
    simp only [List.cons_append, Lead.tail, hsecond, and_self, if_true, htake, hwhile]
  rw [List.cons_append, decodeLossy, if_neg hbyte, hlead]
  simp only [htail, List.length_cons, hlength, if_true]
  rw [← hlength]
  simp

private theorem toNat_byte {n : Nat} (h : n < 256) : (UInt8.ofNat n).toNat = n :=
  UInt8.toNat_ofNat_of_lt' h

/-- A byte between two others, by their numbers. -/
private theorem byte_between {low high : UInt8} {n : Nat} (h : n < 256) (hlow : low.toNat ≤ n)
    (hhigh : n ≤ high.toNat) : low ≤ UInt8.ofNat n ∧ UInt8.ofNat n ≤ high := by
  rw [UInt8.le_iff_toNat_le, UInt8.le_iff_toNat_le, toNat_byte h]
  exact ⟨hlow, hhigh⟩

private theorem continuation_range (n : Nat) :
    (0x80 : UInt8) ≤ UInt8.ofNat (n % 64 + 128) ∧ UInt8.ofNat (n % 64 + 128) ≤ (0xBF : UInt8) :=
  byte_between (by omega) (show 128 ≤ _ by omega) (show _ ≤ 191 by omega)

private theorem ofByte?_two {n : Nat} (h1 : 0xC2 ≤ n) (h2 : n ≤ 0xDF) :
    Lead.ofByte? (UInt8.ofNat n) = some ⟨n - 0xC0, 1, 0x80, 0xBF⟩ := by
  have h := toNat_byte (show n < 256 by omega)
  simp [Lead.ofByte?, UInt8.le_iff_toNat_le, h, h1, h2]

private theorem ofByte?_three {n : Nat} (h1 : 0xE1 ≤ n) (h2 : n ≤ 0xEF) (h3 : n ≠ 0xED) :
    Lead.ofByte? (UInt8.ofNat n) = some ⟨n - 0xE0, 2, 0x80, 0xBF⟩ := by
  have h := toNat_byte (show n < 256 by omega)
  have h4 : ¬ n ≤ 223 := by omega
  have h5 : n ≠ 224 := by omega
  simp [Lead.ofByte?, UInt8.le_iff_toNat_le, ← UInt8.toNat_inj, h, h1, h2, h3, h4, h5]

private theorem ofByte?_four {n : Nat} (h1 : 0xF1 ≤ n) (h2 : n ≤ 0xF3) :
    Lead.ofByte? (UInt8.ofNat n) = some ⟨n - 0xF0, 3, 0x80, 0xBF⟩ := by
  have h := toNat_byte (show n < 256 by omega)
  have h4 : ¬ n ≤ 223 := by omega
  have h5 : n ≠ 224 := by omega
  have h6 : n ≠ 237 := by omega
  have h7 : ¬ n ≤ 239 := by omega
  have h8 : n ≠ 240 := by omega
  simp [Lead.ofByte?, UInt8.le_iff_toNat_le, ← UInt8.toNat_inj, h, h1, h2, h4, h5, h6, h7, h8]

private theorem not_byte_lt {n : Nat} (h1 : 0x80 ≤ n) (h2 : n < 256) :
    ¬ UInt8.ofNat n < (0x80 : UInt8) := by
  rw [UInt8.lt_iff_toNat_lt, toNat_byte h2]
  simpa using h1

private theorem char_of_payload (c : Char) {n : Nat} (h : n = c.val.toNat) :
    Char.ofNat n = c := by
  subst h
  exact Char.ofNat_toNat c

/-- Reading takes the bytes of one character off the front and gives that character. -/
theorem decodeLossy_utf8EncodeChar (c : Char) (rest : List UInt8) :
    decodeLossy (String.utf8EncodeChar c ++ rest) = c :: decodeLossy rest := by
  have hvalid : c.val.toNat < 0xD800 ∨ (0xDFFF < c.val.toNat ∧ c.val.toNat < 0x110000) := c.valid
  rw [String.utf8EncodeChar]
  generalize hv : c.val.toNat = v at hvalid
  split
  case isTrue h1 =>
    have hlt : UInt8.ofNat v < (0x80 : UInt8) := by
      rw [UInt8.lt_iff_toNat_lt, toNat_byte (by omega)]
      show v < 128
      omega
    rw [List.cons_append, decodeLossy, if_pos hlt, List.nil_append, toNat_byte (by omega),
      char_of_payload c hv.symm]
  case isFalse h1 =>
    split
    case isTrue h2 =>
      have hlead := ofByte?_two (n := v / 64 % 32 + 192) (by omega) (by omega)
      have hsecond := continuation_range v
      have hchar : Char.ofNat ([UInt8.ofNat (v % 64 + 128)].foldl
          (fun value b => value * 64 + (b.toNat - 0x80)) (v / 64 % 32 + 192 - 0xC0)) = c := by
        apply char_of_payload
        simp only [List.foldl_cons, List.foldl_nil, toNat_byte (show v % 64 + 128 < 256 by omega)]
        omega
      rw [decodeLossy_lead _ _ [] rest _ (not_byte_lt (by omega) (by omega)) hlead rfl
        hsecond (by simp), Lead.char, hchar]
    case isFalse h2 =>
      split
      case isTrue h3 =>
        have hthird := continuation_range v
        have hmore : ∀ b ∈ [UInt8.ofNat (v % 64 + 128)], (0x80 : UInt8) ≤ b ∧ b ≤ 0xBF := by
          simpa using hthird
        have hchar (payload : Nat) (hpayload : payload = v / 4096 % 16) :
            Char.ofNat ([UInt8.ofNat (v / 64 % 64 + 128), UInt8.ofNat (v % 64 + 128)].foldl
              (fun value b => value * 64 + (b.toNat - 0x80)) payload) = c := by
          apply char_of_payload
          simp only [List.foldl_cons, List.foldl_nil,
            toNat_byte (show v / 64 % 64 + 128 < 256 by omega),
            toNat_byte (show v % 64 + 128 < 256 by omega)]
          omega
        -- Overlong forms start with `E0` and surrogates with `ED`; both narrow the second byte.
        by_cases hE0 : v / 4096 % 16 = 0
        · rw [decodeLossy_lead _ _ _ rest ⟨0, 2, 0xA0, 0xBF⟩ (not_byte_lt (by omega) (by omega))
            (by rw [hE0]; rfl) rfl (byte_between (by omega) (show 160 ≤ _ by omega)
            (show _ ≤ 191 by omega)) hmore, Lead.char, hchar 0 hE0.symm]
        · by_cases hED : v / 4096 % 16 = 13
          · rw [decodeLossy_lead _ _ _ rest ⟨0xD, 2, 0x80, 0x9F⟩
              (not_byte_lt (by omega) (by omega)) (by rw [hED]; rfl) rfl
              (byte_between (by omega) (show 128 ≤ _ by omega) (show _ ≤ 159 by omega)) hmore,
              Lead.char, hchar 13 hED.symm]
          · have hlead := ofByte?_three (n := v / 4096 % 16 + 224) (by omega) (by omega)
              (by omega)
            have hsecond := continuation_range (v / 64)
            rw [decodeLossy_lead _ _ _ rest _ (not_byte_lt (by omega) (by omega)) hlead rfl
              hsecond hmore, Lead.char, hchar _ (by dsimp only; omega)]
      case isFalse h3 =>
        have hmore : ∀ b ∈ [UInt8.ofNat (v / 64 % 64 + 128), UInt8.ofNat (v % 64 + 128)],
            (0x80 : UInt8) ≤ b ∧ b ≤ 0xBF := by
          intro b hb
          simp only [List.mem_cons, List.not_mem_nil, or_false] at hb
          rcases hb with rfl | rfl
          · exact continuation_range (v / 64)
          · exact continuation_range v
        have hchar (payload : Nat) (hpayload : payload = v / 262144 % 8) :
            Char.ofNat ([UInt8.ofNat (v / 4096 % 64 + 128), UInt8.ofNat (v / 64 % 64 + 128),
              UInt8.ofNat (v % 64 + 128)].foldl
              (fun value b => value * 64 + (b.toNat - 0x80)) payload) = c := by
          apply char_of_payload
          simp only [List.foldl_cons, List.foldl_nil,
            toNat_byte (show v / 4096 % 64 + 128 < 256 by omega),
            toNat_byte (show v / 64 % 64 + 128 < 256 by omega),
            toNat_byte (show v % 64 + 128 < 256 by omega)]
          omega
        by_cases hF0 : v / 262144 % 8 = 0
        · rw [decodeLossy_lead _ _ _ rest ⟨0, 3, 0x90, 0xBF⟩ (not_byte_lt (by omega) (by omega))
            (by rw [hF0]; rfl) rfl (byte_between (by omega) (show 144 ≤ _ by omega)
            (show _ ≤ 191 by omega)) hmore, Lead.char, hchar 0 hF0.symm]
        · by_cases hF4 : v / 262144 % 8 = 4
          · rw [decodeLossy_lead _ _ _ rest ⟨4, 3, 0x80, 0x8F⟩
              (not_byte_lt (by omega) (by omega)) (by rw [hF4]; rfl) rfl
              (byte_between (by omega) (show 128 ≤ _ by omega) (show _ ≤ 143 by omega)) hmore,
              Lead.char, hchar 4 hF4.symm]
          · have hlead := ofByte?_four (n := v / 262144 % 8 + 240) (by omega) (by omega)
            have hsecond := continuation_range (v / 4096)
            rw [decodeLossy_lead _ _ _ rest _ (not_byte_lt (by omega) (by omega)) hlead rfl
              hsecond hmore, Lead.char, hchar _ (by dsimp only; omega)]

/-- Decoding undoes encoding. -/
theorem decodeLossy_utf8 (text : List Char) : decodeLossy (utf8 text) = text := by
  induction text with
  | nil => simp [utf8, decodeLossy]
  | cons c rest ih =>
    have h := decodeLossy_utf8EncodeChar c (utf8 rest)
    rw [ih] at h
    simpa [utf8] using h

/-- Only the zero character is spelled with a zero byte. -/
theorem ne_zero_of_mem_utf8EncodeChar {c : Char} (h : c ≠ '\x00') :
    ∀ byte ∈ String.utf8EncodeChar c, byte ≠ 0 := by
  have hpos : c.val.toNat ≠ 0 := by
    intro hzero
    apply h
    rw [← char_of_payload c hzero.symm]
  have hbyte : ∀ n : Nat, 0 < n → n < 256 → UInt8.ofNat n ≠ 0 := by
    intro n hn hlt hzero
    have hnat := congrArg UInt8.toNat hzero
    rw [toNat_byte hlt] at hnat
    exact hn.ne' hnat
  have hvalid : c.val.toNat < 0xD800 ∨ (0xDFFF < c.val.toNat ∧ c.val.toNat < 0x110000) := c.valid
  have hnil : ∀ byte ∈ ([] : List UInt8), byte ≠ 0 := fun _ hmem => absurd hmem List.not_mem_nil
  rw [String.utf8EncodeChar]
  generalize c.val.toNat = v at hpos hvalid
  split
  · exact List.forall_mem_cons.mpr ⟨hbyte _ (by omega) (by omega), hnil⟩
  · split
    · simp only [List.forall_mem_cons]
      exact ⟨hbyte _ (by omega) (by omega), hbyte _ (by omega) (by omega), hnil⟩
    · split
      · simp only [List.forall_mem_cons]
        exact ⟨hbyte _ (by omega) (by omega), hbyte _ (by omega) (by omega),
          hbyte _ (by omega) (by omega), hnil⟩
      · simp only [List.forall_mem_cons]
        exact ⟨hbyte _ (by omega) (by omega), hbyte _ (by omega) (by omega),
          hbyte _ (by omega) (by omega), hbyte _ (by omega) (by omega), hnil⟩

/-- A text up to its first zero character is what is spelled up to the first zero byte. -/
theorem takeWhile_utf8 (text : List Char) (rest : List UInt8) :
    (utf8 text ++ 0 :: rest).takeWhile (· ≠ 0) = utf8 (text.takeWhile (· ≠ '\x00')) := by
  induction text with
  | nil => rfl
  | cons c text ih =>
    have hcons : utf8 (c :: text) = String.utf8EncodeChar c ++ utf8 text := rfl
    rw [hcons, List.append_assoc]
    by_cases hc : c = '\x00'
    · subst hc
      rfl
    · have hbytes : ∀ byte ∈ String.utf8EncodeChar c, decide (byte ≠ 0) = true :=
        fun byte hbyte => decide_eq_true (ne_zero_of_mem_utf8EncodeChar hc byte hbyte)
      rw [List.takeWhile_append_of_pos hbytes, ih, List.takeWhile_cons,
        if_pos (decide_eq_true hc)]
      rfl

end QuantumIR.Text
