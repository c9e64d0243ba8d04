import QuantumIR.Proofs.Text.Escape

/-!
Which texts between quotes spell bytes, and which bytes. A backslash that no earlier escape has used
up is to be followed by another one or by two hexadecimal digits. Reading takes a plus sign for
the first of the two digits as well, and nothing else.
-/

namespace QuantumIR.Text

/-- Two hexadecimal digits and the byte they spell. -/
def HexPair (high low : Char) (byte : UInt8) : Prop :=
  ∃ h l, hexValue? high = some h ∧ hexValue? low = some l ∧ byte = UInt8.ofNat (16 * h + l)

/-- A plus sign and a hexadecimal digit, and the value of the digit. -/
def SignedDigit (high low : Char) (byte : UInt8) : Prop :=
  high = '+' ∧ ∃ l, hexValue? low = some l ∧ byte = UInt8.ofNat l

/-- A text between quotes and its bytes: those of its characters, but for a doubled backslash and
for a backslash before a pair of characters that spells a byte. -/
inductive Unescapes (Pair : Char → Char → UInt8 → Prop) : List Char → List UInt8 → Prop where
  | nil : Unescapes Pair [] []
  | plain {c : Char} {rest : List Char} {bytes : List UInt8} (hc : c ≠ '\\')
      (h : Unescapes Pair rest bytes) :
      Unescapes Pair (c :: rest) (String.utf8EncodeChar c ++ bytes)
  | backslash {rest : List Char} {bytes : List UInt8} (h : Unescapes Pair rest bytes) :
      Unescapes Pair ('\\' :: '\\' :: rest) (0x5C :: bytes)
  | pair {high low : Char} {byte : UInt8} {rest : List Char} {bytes : List UInt8}
      (hpair : Pair high low byte) (h : Unescapes Pair rest bytes) :
      Unescapes Pair ('\\' :: high :: low :: rest) (byte :: bytes)

/-- A text in which a plus sign and a hexadecimal digit follow a backslash that no earlier escape
has used up. -/
def HasSigned (text : List Char) : Prop :=
  ∃ front low rest, text = front ++ '\\' :: '+' :: low :: rest ∧ (unescape? front).isSome ∧
    (hexValue? low).isSome

theorem hexPair?_eq_some_iff {high low : Char} {byte : UInt8} :
    hexPair? high low = some byte ↔ HexPair high low byte ∨ SignedDigit high low byte := by
  unfold hexPair? HexPair SignedDigit
  by_cases hsign : high = '+'
  · subst hsign
    have hplus : hexValue? '+' = none := by decide
    simp [hplus, eq_comm]
  · rw [if_neg hsign]
    constructor
    · intro h
      obtain ⟨h, hhigh, hpair⟩ := Option.bind_eq_some_iff.mp h
      obtain ⟨l, hlow, hbyte⟩ := Option.bind_eq_some_iff.mp hpair
      exact .inl ⟨h, l, hhigh, hlow, (Option.some.inj hbyte).symm⟩
    · rintro (⟨h, l, hhigh, hlow, rfl⟩ | ⟨hplus, -⟩)
      · rw [hhigh, hlow]
        rfl
      · exact absurd hplus hsign

/-- No pair starts with a backslash. -/
theorem ne_backslash_of_hexPair? {high low : Char} {byte : UInt8}
    (h : hexPair? high low = some byte) : high ≠ '\\' := by
  rintro rfl
  have hnone : hexValue? '\\' = none := by decide
  rw [hexPair?, if_neg (by decide), hnone] at h
  cases h

theorem unescape?_backslash (rest : List Char) :
    unescape? ('\\' :: '\\' :: rest) = (unescape? rest).map (0x5C :: ·) := by
  rw [unescape?]

theorem unescape?_pair {high low : Char} {byte : UInt8} (h : hexPair? high low = some byte)
    (rest : List Char) :
    unescape? ('\\' :: high :: low :: rest) = (unescape? rest).map (byte :: ·) := by
  rw [unescape?]
  · rw [h]
    cases unescape? rest <;> rfl
  · exact fun hhigh => ne_backslash_of_hexPair? h hhigh

theorem unescape?_of_unescapes {Pair : Char → Char → UInt8 → Prop}
    (hpairs : ∀ high low byte, Pair high low byte → hexPair? high low = some byte)
    {text : List Char} {bytes : List UInt8} (h : Unescapes Pair text bytes) :
    unescape? text = some bytes := by
  induction h with
  | nil => rfl
  | plain hc _ ih => rw [unescape?_cons _ _ hc, ih, Option.map_some]
  | backslash _ ih => rw [unescape?_backslash, ih, Option.map_some]
  | pair hpair _ ih => rw [unescape?_pair (hpairs _ _ _ hpair), ih, Option.map_some]

/-- Reading goes through a text escape by escape. -/
theorem unescapes_of_unescape? {text : List Char} {bytes : List UInt8}
    (h : unescape? text = some bytes) :
    Unescapes (fun high low byte => hexPair? high low = some byte) text bytes := by
  induction text using unescape?.induct generalizing bytes with
  | case1 =>
    cases h
    exact .nil
  | case2 rest ih =>
    rw [unescape?_backslash] at h
    obtain ⟨bytes, hbytes, rfl⟩ := Option.map_eq_some_iff.mp h
    exact .backslash (ih hbytes)
  | case3 high low rest hne ih =>
    rw [unescape?] at h
    · obtain ⟨byte, hbyte, h⟩ := Option.bind_eq_some_iff.mp h
      obtain ⟨bytes, hbytes, h⟩ := Option.bind_eq_some_iff.mp h
      cases h
      exact .pair hbyte (ih hbytes)
    · exact hne
  | case4 rest hbackslash hpair =>
    rw [unescape?, if_pos rfl] at h
    · cases h
    all_goals assumption
  | case5 c rest hbackslash hpair hc ih =>
    rw [unescape?_cons c rest hc] at h
    obtain ⟨bytes, hbytes, rfl⟩ := Option.map_eq_some_iff.mp h
    exact .plain hc (ih hbytes)

theorem Unescapes.mono {Pair Pair' : Char → Char → UInt8 → Prop} {text : List Char}
    {bytes : List UInt8} (h : Unescapes Pair text bytes)
    (hpairs : ∀ high low byte, Pair high low byte → Pair' high low byte) :
    Unescapes Pair' text bytes := by
  induction h with
  | nil => exact .nil
  | plain hc _ ih => exact .plain hc ih
  | backslash _ ih => exact .backslash ih
  | pair hpair _ ih => exact .pair (hpairs _ _ _ hpair) ih

/-- A signed digit stays one behind text that is taken up by characters and whole escapes. -/
theorem HasSigned.prepend {rest : List Char} (step : List Char)
    (hstep : ∀ front, (unescape? front).isSome → (unescape? (step ++ front)).isSome)
    (h : HasSigned rest) : HasSigned (step ++ rest) := by
  obtain ⟨front, low, rest', rfl, hfront, hlow⟩ := h
  exact ⟨step ++ front, low, rest', (List.append_assoc ..).symm, hstep front hfront, hlow⟩

/-- Without a signed digit, only pairs of hexadecimal digits spell a byte. -/
theorem unescapes_of_not_hasSigned {text : List Char} {bytes : List UInt8}
    (h : Unescapes (fun high low byte => hexPair? high low = some byte) text bytes)
    (hsigned : ¬ HasSigned text) : Unescapes HexPair text bytes := by
  induction h with
  | nil => exact .nil
  | @plain c rest bytes hc _ ih =>
    refine .plain hc (ih fun hrest => hsigned (hrest.prepend [c] ?_))
    intro front hfront
    rwa [List.singleton_append, unescape?_cons c front hc, Option.isSome_map]
  | @backslash rest bytes _ ih =>
    refine .backslash (ih fun hrest => hsigned (hrest.prepend ['\\', '\\'] ?_))
    intro front hfront
    rwa [List.cons_append, List.singleton_append, unescape?_backslash, Option.isSome_map]
  | @pair high low byte rest bytes hpair _ ih =>
    have hrest : ¬ HasSigned rest := by
      refine fun hrest => hsigned (hrest.prepend ['\\', high, low] ?_)
      intro front hfront
      rwa [List.cons_append, List.cons_append, List.singleton_append, unescape?_pair hpair,
        Option.isSome_map]
    rcases hexPair?_eq_some_iff.mp hpair with hhex | ⟨rfl, l, hlow, -⟩
    · exact .pair hhex (ih hrest)
    · exact absurd ⟨[], low, rest, rfl, rfl, by rw [hlow]; rfl⟩ hsigned

/-- Reading gives bytes exactly where every backslash starts an escape, and each escape stands for
one byte: a doubled backslash, two hexadecimal digits, and also a plus sign with one digit. Where no
plus sign and digit follow the backslash of an escape, that is just the first two. -/
theorem unescapes_iff (text : List Char) (bytes : List UInt8) :
    (unescape? text = some bytes ↔
      Unescapes (fun high low byte => HexPair high low byte ∨ SignedDigit high low byte)
        text bytes) ∧
    (¬ HasSigned text → (unescape? text = some bytes ↔ Unescapes HexPair text bytes)) := by
  refine ⟨⟨?_, ?_⟩, fun hsigned => ⟨?_, ?_⟩⟩
  · intro h
    exact (unescapes_of_unescape? h).mono fun _ _ _ => hexPair?_eq_some_iff.mp
  · exact unescape?_of_unescapes fun _ _ _ => hexPair?_eq_some_iff.mpr
  · intro h
    exact unescapes_of_not_hasSigned (unescapes_of_unescape? h) hsigned
  · exact unescape?_of_unescapes fun _ _ _ h => hexPair?_eq_some_iff.mpr (.inl h)

/-- A character of two bytes, a doubled backslash before digits, and digits in either case. -/
theorem unescapes_doubled :
    ¬ HasSigned ['é', '\\', '\\', '4', '1', '\\', 'c', 'A'] ∧
      Unescapes HexPair ['é', '\\', '\\', '4', '1', '\\', 'c', 'A']
        [0xC3, 0xA9, 0x5C, 0x34, 0x31, 0xCA] := by
  have hsigned : ¬ HasSigned ['é', '\\', '\\', '4', '1', '\\', 'c', 'A'] := by
    rintro ⟨front, low, rest, htext, -⟩
    have hmem : '+' ∈ ['é', '\\', '\\', '4', '1', '\\', 'c', 'A'] := by
      rw [htext]
      simp
    revert hmem
    decide
  exact ⟨hsigned, ((unescapes_iff _ _).2 hsigned).mp (by decide)⟩

/-- A plus sign and a digit are read as a byte, though they are not two digits. -/
theorem unescapes_signed :
    unescape? ['\\', '+', '5'] = some [5] ∧ ¬ Unescapes HexPair ['\\', '+', '5'] [5] := by
  refine ⟨by decide, ?_⟩
  intro h
  cases h with
  | pair hpair _ =>
    obtain ⟨h, _, hplus, -⟩ := hpair
    have hnone : hexValue? '+' = none := by decide
    rw [hnone] at hplus
    cases hplus

end QuantumIR.Text
