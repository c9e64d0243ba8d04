import QuantumIR.Proofs.Token.Names

/-!
What a piece of a text is does not change if the text after it is replaced by one that closes
runs. A piece may need that text to end where it does, as a number does before a letter, but
nothing in it is left open.
-/

namespace QuantumIR

open Text

namespace Lexeme

/-- A text that does not go on with characters that a test accepts. -/
def Stops (p : Char → Bool) (text : List Char) : Prop :=
  ∀ c rest, text = c :: rest → p c = false

theorem Closed.stops {text : List Char} (h : Closed text) {p : Char → Bool}
    (hp : ∀ c, p c → isNameChar c) : Stops p text := by
  intro c rest heq
  by_contra hc
  rw [Bool.not_eq_false] at hc
  have := h.not_name heq
  rw [hp c hc] at this
  exact Bool.noConfusion this

theorem Closed.stopsDigit {text : List Char} (h : Closed text) : Stops isDigit text :=
  h.stops fun _ hc => isNameChar_of_isDigit hc

theorem Closed.stopsName {text : List Char} (h : Closed text) : Stops isNameChar text :=
  h.stops fun _ hc => hc

section TakeWhile

variable {p : Char → Bool} {row text text' : List Char}

theorem takeWhile_eq_row (h : ((row ++ text).takeWhile p).length = row.length) :
    (row ++ text).takeWhile p = row ∧ (∀ c ∈ row, p c) ∧ Stops p text := by
  induction row with
  | nil =>
    refine ⟨List.length_eq_zero_iff.mp h, fun c hc => absurd hc List.not_mem_nil, ?_⟩
    rintro c rest rfl
    by_contra hc
    rw [Bool.not_eq_false] at hc
    rw [List.nil_append, List.takeWhile_cons_of_pos hc] at h
    exact absurd h (Nat.succ_ne_zero _)
  | cons d others ih =>
    rw [List.cons_append] at h ⊢
    by_cases hd : p d
    · rw [List.takeWhile_cons_of_pos hd] at h ⊢
      obtain ⟨heq, hall, hstops⟩ := ih (Nat.succ.inj h)
      refine ⟨by rw [heq], ?_, hstops⟩
      intro c hc
      rcases List.mem_cons.mp hc with rfl | hc
      · exact hd
      · exact hall c hc
    · rw [List.takeWhile_cons_of_neg hd] at h
      exact absurd h.symm (Nat.succ_ne_zero _)

/-- What a row is taken up to does not change with the text after it. -/
theorem takeWhile_change (hle : ((row ++ text).takeWhile p).length ≤ row.length)
    (hstops : ((row ++ text).takeWhile p).length = row.length → Stops p text') :
    (row ++ text').takeWhile p = (row ++ text).takeWhile p := by
  induction row with
  | nil =>
    have hnil := Nat.le_zero.mp hle
    rw [List.length_eq_zero_iff.mp hnil, List.nil_append]
    cases text' with
    | nil => rfl
    | cons c rest =>
      rw [List.takeWhile_cons_of_neg]
      rw [hstops hnil c rest rfl]
      exact Bool.false_ne_true
  | cons d others ih =>
    rw [List.cons_append, List.cons_append]
    by_cases hd : p d
    · rw [List.cons_append, List.takeWhile_cons_of_pos hd] at hle hstops
      rw [List.takeWhile_cons_of_pos hd, List.takeWhile_cons_of_pos hd]
      rw [ih (Nat.le_of_succ_le_succ hle) fun heq => hstops (congrArg (· + 1) heq)]
    · rw [List.takeWhile_cons_of_neg hd, List.takeWhile_cons_of_neg hd]

/-- A row is taken up to a character that a test refuses, or whole. -/
theorem takeWhile_append_of_stops (hstops : Stops p text) :
    (row ++ text).takeWhile p = row.takeWhile p := by
  induction row with
  | nil =>
    cases text with
    | nil => rfl
    | cons c rest =>
      rw [List.nil_append, List.takeWhile_cons_of_neg, List.takeWhile_nil]
      rw [hstops c rest rfl]
      exact Bool.false_ne_true
  | cons d others ih =>
    rw [List.cons_append]
    by_cases hd : p d
    · rw [List.takeWhile_cons_of_pos hd, List.takeWhile_cons_of_pos hd, ih]
    · rw [List.takeWhile_cons_of_neg hd, List.takeWhile_cons_of_neg hd]

end TakeWhile

variable {piece text text' : List Char} {found : Token}

theorem lt_length_quoted (before : Nat) (rest : List Char) (make : List Char → Option Token) :
    before < (Cut.quoted before rest make).length := by
  rw [Cut.quoted]
  split
  · simp only
    omega
  · simp only
    omega

/-- A quoted form goes to its closing quote, whatever follows. -/
theorem quoted_stable {before : Nat} {make : List Char → Option Token}
    (h : Cut.quoted before (piece ++ text) make = ⟨before + 1 + piece.length, some found⟩)
    (text' : List Char) :
    Cut.quoted before (piece ++ text') make = ⟨before + 1 + piece.length, some found⟩ := by
  rw [Cut.quoted] at h
  split at h
  case isFalse => exact absurd (congrArg Cut.token? h) (Option.some_ne_none found).symm
  case isTrue hlt =>
    have hlength := congrArg Cut.length h
    simp only at hlength
    have hwhile : (piece ++ text').takeWhile (· ≠ '"') = (piece ++ text).takeWhile (· ≠ '"') :=
      takeWhile_change (by omega) fun heq => by omega
    have hshorter : ((piece ++ text).takeWhile (· ≠ '"')).length < (piece ++ text').length := by
      rw [List.length_append]
      omega
    rw [Cut.quoted]
    simp only [hwhile, if_pos hshorter]
    exact h

/-- A string stays one unless a colon makes it a label. -/
theorem stringOrLabel_stable
    (h : Cut.stringOrLabel (piece ++ text) = ⟨piece.length + 1, some found⟩)
    (hclosed : Closed text') :
    Cut.stringOrLabel (piece ++ text') = ⟨piece.length + 1, some found⟩ := by
  have hhead : ∀ post : List Char,
      ((piece ++ post).drop (((piece ++ text).takeWhile (· ≠ '"')).length + 1)).head? =
        (piece ++ post)[((piece ++ text).takeWhile (· ≠ '"')).length + 1]? :=
    fun post => List.head?_drop
  rw [Cut.stringOrLabel] at h
  simp only [hhead] at h
  split at h
  case isTrue hcolon =>
    have hlength := congrArg Cut.length h
    simp only at hlength
    have hwhile : (piece ++ text').takeWhile (· ≠ '"') = (piece ++ text).takeWhile (· ≠ '"') :=
      takeWhile_change (by omega) fun heq => by omega
    rw [List.getElem?_append_left (by omega)] at hcolon
    rw [Cut.stringOrLabel]
    simp only [hwhile, hhead]
    rw [List.getElem?_append_left (by omega), if_pos hcolon]
    exact h
  case isFalse hcolon =>
    have hquoted : Cut.quoted 0 (piece ++ text)
        (fun inner => (unquoted? inner).map Token.string) =
          ⟨0 + 1 + piece.length, some found⟩ := by
      rw [h, Nat.zero_add, Nat.add_comm 1]
    have hquoted' := quoted_stable hquoted text'
    rw [Cut.quoted] at hquoted
    split at hquoted
    case isFalse => exact absurd (congrArg Cut.token? hquoted) (Option.some_ne_none found).symm
    case isTrue =>
      have hlength := congrArg Cut.length hquoted
      simp only at hlength
      have hwhile : (piece ++ text').takeWhile (· ≠ '"') = (piece ++ text).takeWhile (· ≠ '"') :=
        takeWhile_change (by omega) fun heq => by omega
      have hindex : ((piece ++ text).takeWhile (· ≠ '"')).length + 1 = piece.length := by omega
      rw [hindex, List.getElem?_append_right le_rfl, Nat.sub_self, ← List.head?_eq_getElem?]
        at hcolon
      rw [Cut.stringOrLabel]
      simp only [hwhile, hhead]
      rw [hindex, List.getElem?_append_right le_rfl, Nat.sub_self, ← List.head?_eq_getElem?,
        if_neg (hclosed.head?_ne rfl), hquoted', Nat.zero_add, Nat.add_comm 1]

/-- A name after a sigil goes to the last name character. -/
theorem named_stable {make : String → Token}
    (h : Cut.named (piece ++ text) make = ⟨1 + piece.length, some found⟩)
    (hclosed : Closed text') :
    Cut.named (piece ++ text') make = ⟨1 + piece.length, some found⟩ := by
  rw [Cut.named] at h
  split at h
  case isTrue => exact absurd (congrArg Cut.token? h) (Option.some_ne_none found).symm
  case isFalse hne =>
    have hlength : ((piece ++ text).takeWhile isNameChar).length = piece.length := by
      have := congrArg Cut.length h
      simp only at this
      omega
    obtain ⟨hwhile, hname, hstops⟩ := takeWhile_eq_row hlength
    have hwhile' : (piece ++ text').takeWhile isNameChar = piece :=
      takeWhile_append_stop hname hclosed.stopsName
    rw [hwhile] at h hne
    rw [Cut.named]
    simp only [hwhile', if_neg hne]
    exact h

theorem group_stable (h : Cut.group (piece ++ text) = ⟨1 + piece.length, some found⟩)
    (hclosed : Closed text') :
    Cut.group (piece ++ text') = ⟨1 + piece.length, some found⟩ := by
  rw [Cut.group] at h
  split at h
  case isTrue => exact absurd (congrArg Cut.token? h) (Option.some_ne_none found).symm
  case isFalse hne =>
    have hlength : ((piece ++ text).takeWhile isDigit).length = piece.length := by
      have := congrArg Cut.length h
      simp only at this
      omega
    obtain ⟨hwhile, hdigit, hstops⟩ := takeWhile_eq_row hlength
    have hwhile' : (piece ++ text').takeWhile isDigit = piece :=
      takeWhile_append_stop hdigit hclosed.stopsDigit
    rw [hwhile] at h hne
    rw [Cut.group]
    simp only [hwhile', if_neg hne]
    exact h

theorem wholeLength_stable (hne : Cut.wholeLength (piece ++ text) ≠ 0)
    (hle : Cut.wholeLength (piece ++ text) ≤ piece.length) (hdigit : Stops isDigit text') :
    Cut.wholeLength (piece ++ text') = Cut.wholeLength (piece ++ text) := by
  obtain ⟨c, rest, rfl⟩ : ∃ c rest, piece = c :: rest := by
    cases piece with
    | nil => exact absurd (Nat.le_zero.mp hle) hne
    | cons c rest => exact ⟨c, rest, rfl⟩
  obtain ⟨sign, hsign⟩ : ∃ sign, sign = if some c = some '-' then 1 else 0 := ⟨_, rfl⟩
  have hsignLength : sign ≤ (c :: rest).length := by
    rw [hsign, List.length_cons]
    split <;> omega
  have hlength : ∀ post : List Char, Cut.wholeLength (c :: rest ++ post) =
      if (((c :: rest).drop sign ++ post).takeWhile isDigit).isEmpty then 0
      else sign + (((c :: rest).drop sign ++ post).takeWhile isDigit).length := by
    intro post
    rw [Cut.wholeLength, List.cons_append, List.head?_cons, ← hsign, ← List.cons_append,
      List.drop_append_of_le_length hsignLength]
  rw [hlength] at hne hle ⊢
  rw [hlength]
  split at hne
  case isTrue => exact absurd rfl hne
  case isFalse hempty =>
    rw [if_neg hempty] at hle
    have hwhile : ((c :: rest).drop sign ++ text').takeWhile isDigit =
        ((c :: rest).drop sign ++ text).takeWhile isDigit :=
      takeWhile_change (by rw [List.length_drop]; omega) fun _ => hdigit
    rw [hwhile]

theorem fractionLength_stable (hle : Cut.fractionLength (piece ++ text) ≤ piece.length)
    (hdigit : Stops isDigit text') (hpoint : piece = [] → text'.head? ≠ some '.') :
    Cut.fractionLength (piece ++ text') = Cut.fractionLength (piece ++ text) := by
  have hother : ∀ post : List Char, post.head? ≠ some '.' → Cut.fractionLength post = 0 := by
    intro post hpost
    unfold Cut.fractionLength
    split
    · exact absurd rfl hpost
    · rfl
  cases piece with
  | nil => rw [List.nil_append, hother text' (hpoint rfl), Nat.le_zero.mp hle]
  | cons c rest =>
    by_cases hc : c = '.'
    · subst hc
      have hlength : ∀ post : List Char, Cut.fractionLength ('.' :: rest ++ post) =
          1 + ((rest ++ post).takeWhile isDigit).length := fun _ => rfl
      rw [hlength, List.length_cons] at hle
      have hwhile : (rest ++ text').takeWhile isDigit = (rest ++ text).takeWhile isDigit :=
        takeWhile_change (by omega) fun _ => hdigit
      rw [hlength, hlength, hwhile]
    · have hhead : ∀ post : List Char, (c :: rest ++ post).head? ≠ some '.' := by
        intro post heq
        exact hc (Option.some.inj heq)
      rw [hother _ (hhead text'), hother _ (hhead text)]

/-- The length of the sign of an exponent depends on the first character after its letter. -/
theorem exists_exponentSign (e c : Char) (rest : List Char) (he : e = 'e' ∨ e = 'E') :
    ∃ sign ≤ (c :: rest).length, ∀ post, Cut.exponentLength (e :: (c :: rest ++ post)) =
      if (((c :: rest).drop sign ++ post).takeWhile isDigit).isEmpty then 0
      else 1 + sign + (((c :: rest).drop sign ++ post).takeWhile isDigit).length := by
  by_cases hc : c = '-' ∨ c = '+'
  · refine ⟨1, by simp, ?_⟩
    intro post
    rcases hc with rfl | rfl
    · simp only [Cut.exponentLength, if_pos he]
      rfl
    · simp only [Cut.exponentLength, if_pos he]
      rfl
  · refine ⟨0, Nat.zero_le _, ?_⟩
    intro post
    rw [not_or] at hc
    rw [Cut.exponentLength, if_pos he]
    · simp only [List.drop_zero]
    · rintro others heq
      exact hc.1 (List.cons.inj heq).1
    · rintro others heq
      exact hc.2 (List.cons.inj heq).1

theorem exponentLength_stable (h : Cut.exponentLength (piece ++ text) = piece.length)
    (hdigit : Stops isDigit text') (hquiet : piece = [] → Cut.exponentLength text' = 0) :
    Cut.exponentLength (piece ++ text') = piece.length := by
  cases piece with
  | nil => exact hquiet rfl
  | cons e rest =>
    have he : e = 'e' ∨ e = 'E' := by
      by_contra hne
      rw [List.cons_append, Cut.exponentLength.eq_def] at h
      simp only [if_neg hne] at h
      exact absurd h.symm (Nat.succ_ne_zero _)
    cases rest with
    | nil =>
      exfalso
      rw [List.singleton_append] at h
      cases text with
      | nil => simp [Cut.exponentLength, he] at h
      | cons c others =>
        obtain ⟨sign, -, hlength⟩ := exists_exponentSign e c others he
        have hvalue := hlength []
        rw [List.append_nil, h, List.append_nil] at hvalue
        split at hvalue
        case isTrue => exact absurd hvalue (Nat.succ_ne_zero _)
        case isFalse hempty =>
          have := List.length_pos_iff.mpr (mt List.isEmpty_iff.mpr hempty)
          rw [List.length_singleton] at hvalue
          omega
    | cons c rest =>
      obtain ⟨sign, hsign, hlength⟩ := exists_exponentSign e c rest he
      rw [List.cons_append, hlength] at h
      rw [List.cons_append, hlength]
      split at h
      case isTrue => exact absurd h.symm (Nat.succ_ne_zero _)
      case isFalse hempty =>
        have hwhile : ((c :: rest).drop sign ++ text').takeWhile isDigit =
            ((c :: rest).drop sign ++ text).takeWhile isDigit := by
          refine takeWhile_change ?_ fun _ => hdigit
          rw [List.length_cons] at h
          rw [List.length_drop]
          omega
        rw [hwhile, if_neg hempty]
        exact h

theorem wholeLength_zero (rest : List Char) : Cut.wholeLength ('0' :: 'x' :: rest) = 1 := rfl

theorem exists_of_bitsOfHex? {x : Double} (h : Cut.bitsOfHex? text = some x) :
    ∃ rest, text = '0' :: 'x' :: rest := by
  unfold Cut.bitsOfHex? at h
  split at h
  case h_1 rest => exact ⟨rest, rfl⟩
  case h_2 => exact absurd h (Option.some_ne_none x).symm

theorem bitsOfHex?_stable {x : Double} (hlength : piece.length = 18)
    (h : Cut.bitsOfHex? (piece ++ text) = some x) (text' : List Char) :
    Cut.bitsOfHex? (piece ++ text') = some x := by
  obtain ⟨rest, hrest⟩ := exists_of_bitsOfHex? h
  match piece, hlength with
  | first :: second :: others, hlength =>
    simp only [List.cons_append, List.cons.injEq] at hrest
    obtain ⟨rfl, rfl, -⟩ := hrest
    have htake : ∀ post : List Char, (others ++ post).take 16 = others := by
      intro post
      have hothers : others.length = 16 := by simpa using hlength
      rw [← hothers, List.take_left]
    have hvalue : ∀ post : List Char, Cut.bitsOfHex? ('0' :: 'x' :: (others ++ post)) =
        (others.mapM hexValue?).bind fun digits => if digits.length = 16 then
          some ⟨UInt64.ofNat (digits.foldl (fun value d => 16 * value + d) 0)⟩ else none := by
      intro post
      rw [Cut.bitsOfHex?, htake]
      rfl
    rw [List.cons_append, List.cons_append, hvalue] at h ⊢
    exact h

theorem exponentLength_eq_zero (rest : List Char) : Cut.exponentLength ('x' :: rest) = 0 := by
  rw [Cut.exponentLength.eq_def]
  simp

/-- A number without bits is its whole part, its fraction and its exponent. -/
theorem number_parts (hbits : Cut.bitsOfHex? text = none)
    (h : Cut.number text = ⟨piece.length, some found⟩) :
    Cut.wholeLength text ≠ 0 ∧ piece.length = Cut.wholeLength text +
      Cut.fractionLength (text.drop (Cut.wholeLength text)) +
        Cut.exponentLength (text.drop (Cut.wholeLength text +
          Cut.fractionLength (text.drop (Cut.wholeLength text)))) := by
  rw [Cut.number] at h
  split at h
  case isTrue => exact absurd (congrArg Cut.token? h) (Option.some_ne_none found).symm
  case isFalse hne =>
    refine ⟨hne, ?_⟩
    simp only [hbits] at h
    split at h
    · exact (congrArg Cut.length h).symm
    · exact (congrArg Cut.length h).symm

/-- A number without bits depends on the lengths of its parts and on its own characters. -/
theorem number_congr (hbits : Cut.bitsOfHex? (piece ++ text) = none)
    (h : Cut.number (piece ++ text) = ⟨piece.length, some found⟩)
    (hbits' : Cut.bitsOfHex? (piece ++ text') = none)
    (hwhole : Cut.wholeLength (piece ++ text') = Cut.wholeLength (piece ++ text))
    (hfraction : Cut.fractionLength ((piece ++ text').drop (Cut.wholeLength (piece ++ text))) =
      Cut.fractionLength ((piece ++ text).drop (Cut.wholeLength (piece ++ text))))
    (hexponent : ∀ count, count = Cut.wholeLength (piece ++ text) +
        Cut.fractionLength ((piece ++ text).drop (Cut.wholeLength (piece ++ text))) →
      Cut.exponentLength ((piece ++ text').drop count) =
        Cut.exponentLength ((piece ++ text).drop count)) :
    Cut.number (piece ++ text') = ⟨piece.length, some found⟩ := by
  obtain ⟨hne, hlength⟩ := number_parts hbits h
  rw [Cut.number] at h ⊢
  rw [hwhole, if_neg hne] at *
  simp only [hbits, hbits', hfraction, hexponent _ rfl, ← hlength, List.take_left] at h ⊢
  exact h

theorem number_stable_bits {x : Double} (hbits : Cut.bitsOfHex? (piece ++ text) = some x)
    (h : Cut.number (piece ++ text) = ⟨piece.length, some found⟩) (text' : List Char) :
    Cut.number (piece ++ text') = ⟨piece.length, some found⟩ := by
  have hwhole : ∀ post, Cut.bitsOfHex? (piece ++ post) = some x →
      Cut.number (piece ++ post) = ⟨18, some (.float x)⟩ := by
    intro post hpost
    obtain ⟨rest, hrest⟩ := exists_of_bitsOfHex? hpost
    rw [Cut.number, if_neg (by rw [hrest, wholeLength_zero]; exact Nat.one_ne_zero), hpost]
  rw [hwhole text hbits] at h
  rw [hwhole text' (bitsOfHex?_stable (congrArg Cut.length h).symm hbits text')]
  exact h

/-- A text that is no double given by its bits stays so. -/
theorem bitsOfHex?_none_stable (hbits : Cut.bitsOfHex? (piece ++ text) = none)
    (h : Cut.number (piece ++ text) = ⟨piece.length, some found⟩)
    (hzero : piece = ['0'] → Cut.bitsOfHex? ('0' :: text') = none) :
    Cut.bitsOfHex? (piece ++ text') = none := by
  obtain ⟨hne, hlength⟩ := number_parts hbits h
  match piece with
  | [] =>
    rw [List.length_nil] at hlength
    omega
  | [c] =>
    by_cases hc : c = '0'
    · subst hc
      exact hzero rfl
    · exact bitsOfHex?_eq_none fun rest heq => hc (List.cons.inj heq).1
  | c :: d :: rest =>
    refine bitsOfHex?_eq_none ?_
    intro others heq
    simp only [List.cons_append, List.cons.injEq] at heq
    obtain ⟨rfl, rfl, -⟩ := heq
    -- the number would be the zero alone
    have hfraction : Cut.fractionLength ('x' :: (rest ++ text)) = 0 := rfl
    simp only [List.cons_append, wholeLength_zero, List.drop_succ_cons, List.drop_zero, hfraction,
      Nat.add_zero, exponentLength_eq_zero, List.length_cons] at hlength
    omega

/-- A number stays what it is before a text that closes runs. -/
theorem number_stable (h : Cut.number (piece ++ text) = ⟨piece.length, some found⟩)
    (hclosed : Closed text') : Cut.number (piece ++ text') = ⟨piece.length, some found⟩ := by
  cases hbits : Cut.bitsOfHex? (piece ++ text) with
  | some x => exact number_stable_bits hbits h text'
  | none =>
    obtain ⟨hne, hlength⟩ := number_parts hbits h
    obtain ⟨whole, hwhole⟩ : ∃ whole, whole = Cut.wholeLength (piece ++ text) := ⟨_, rfl⟩
    obtain ⟨fraction, hfraction⟩ :
        ∃ fraction, fraction = Cut.fractionLength ((piece ++ text).drop whole) := ⟨_, rfl⟩
    rw [← hwhole] at hne
    rw [← hwhole, ← hfraction] at hlength
    have hdropWhole : ∀ post : List Char, (piece ++ post).drop whole = piece.drop whole ++ post :=
      fun post => List.drop_append_of_le_length (by omega)
    have hdropFraction : ∀ post : List Char, (piece ++ post).drop (whole + fraction) =
        piece.drop (whole + fraction) ++ post :=
      fun post => List.drop_append_of_le_length (by omega)
    have hrest : (piece.drop (whole + fraction)).length =
        Cut.exponentLength (piece.drop (whole + fraction) ++ text) := by
      rw [← hdropFraction, List.length_drop]
      omega
    refine number_congr hbits h ?_ ?_ ?_ ?_
    · refine bitsOfHex?_none_stable hbits h fun _ => bitsOfHex?_eq_none ?_
      intro rest heq
      exact hclosed.ne (List.cons.inj heq).2 rfl rfl
    · exact wholeLength_stable (by rwa [← hwhole]) (by omega) hclosed.stopsDigit
    · rw [← hwhole, hdropWhole, hdropWhole]
      refine fractionLength_stable ?_ hclosed.stopsDigit fun _ => hclosed.head?_ne rfl
      rw [← hdropWhole, ← hfraction, List.length_drop]
      omega
    · rintro count rfl
      rw [← hwhole, ← hfraction, hdropFraction, hdropFraction, ← hrest]
      exact exponentLength_stable hrest.symm hclosed.stopsDigit fun _ => hclosed.exponentLength

theorem longest_stable {c : Char} {rest : List Char}
    (h : Cut.longest (c :: rest ++ text) = ⟨(c :: rest).length, some found⟩)
    (hclosed : Closed text') :
    Cut.longest (c :: rest ++ text') = ⟨(c :: rest).length, some found⟩ := by
  rw [List.cons_append, Cut.longest] at h ⊢
  split at h
  case isTrue hc =>
    rw [if_pos hc, ← List.cons_append]
    rw [← List.cons_append] at h
    obtain ⟨hwhile, hword, -⟩ := takeWhile_eq_row (congrArg Cut.length h)
    have hwhile' : (c :: rest ++ text').takeWhile Cut.isWordChar = c :: rest :=
      takeWhile_append_stop hword (hclosed.stops fun _ => isNameChar_of_isWordChar)
    rw [hwhile] at h
    rw [hwhile']
    exact h
  case isFalse hc =>
    rw [if_neg hc]
    split at h
    case isTrue hpoint =>
      rw [if_pos hpoint]
      split at h
      case isFalse => exact absurd (congrArg Cut.token? h) (Option.some_ne_none found).symm
      case isTrue htake =>
        have hlength : 3 = (c :: rest).length := congrArg Cut.length h
        have hpiece : (c :: rest ++ text).take 3 = c :: rest := by rw [hlength, List.take_left]
        have hpiece' : (c :: rest ++ text').take 3 = c :: rest := by rw [hlength, List.take_left]
        rw [← List.cons_append, hpiece] at htake
        rw [← List.cons_append, hpiece', if_pos htake]
        exact h
    case isFalse hpoint =>
      rw [if_neg hpoint, ← List.cons_append]
      rw [← List.cons_append] at h
      exact number_stable h hclosed

/-- What stands at the start of a run stays there if the run ends with it or before it. -/
theorem run_stable {c : Char} {rest : List Char}
    (h : Cut.run (c :: rest ++ text) = ⟨(c :: rest).length, some found⟩)
    (hclosed : Closed text') :
    Cut.run (c :: rest ++ text') = ⟨(c :: rest).length, some found⟩ := by
  have hwhile' : (c :: rest ++ text').takeWhile isNameChar = (c :: rest).takeWhile isNameChar :=
    takeWhile_append_of_stops hclosed.stopsName
  have hle : ((c :: rest).takeWhile isNameChar).length ≤ (c :: rest).length :=
    (List.takeWhile_prefix _).length_le
  -- a run that ends inside the piece ends there before any text
  have hshort : ((c :: rest).takeWhile isNameChar).length < (c :: rest).length →
      (c :: rest ++ text).takeWhile isNameChar = (c :: rest).takeWhile isNameChar := by
    intro hlt
    have halone : (c :: rest ++ []).takeWhile isNameChar = (c :: rest).takeWhile isNameChar := by
      rw [List.append_nil]
    rw [← halone]
    refine takeWhile_change (by rw [halone]; exact hle) ?_
    intro heq
    rw [halone] at heq
    exact absurd heq hlt.ne
  rw [Cut.run] at h ⊢
  simp only [List.head?_drop] at h ⊢
  rw [hwhile']
  split at h
  case isTrue => exact absurd (congrArg Cut.token? h) (Option.some_ne_none found).symm
  case isFalse hne =>
    have hne' : ¬ ((c :: rest).takeWhile isNameChar).isEmpty := by
      intro hempty
      have hzero := List.length_eq_zero_iff.mpr (List.isEmpty_iff.mp hempty)
      rw [hshort (by rw [hzero]; exact Nat.succ_pos _)] at hne
      exact hne hempty
    rw [if_neg hne']
    split at h
    case isTrue hcolon =>
      have hlength := congrArg Cut.length h
      simp only at hlength
      have hsame : (c :: rest).takeWhile isNameChar = (c :: rest ++ text).takeWhile isNameChar := by
        have hchange : (c :: rest ++ []).takeWhile isNameChar =
            (c :: rest ++ text).takeWhile isNameChar :=
          takeWhile_change (by omega) fun heq => by omega
        rwa [List.append_nil] at hchange
      rw [List.getElem?_append_left (by omega)] at hcolon
      rw [hsame, List.getElem?_append_left (by omega), if_pos hcolon]
      exact h
    case isFalse hcolon =>
      have hcolon' : (c :: rest ++ text')[((c :: rest).takeWhile isNameChar).length]? ≠
          some ':' := by
        rcases hle.lt_or_eq with hlt | heq
        · rw [hshort hlt, List.getElem?_append_left hlt] at hcolon
          rwa [List.getElem?_append_left hlt]
        · rw [heq, List.getElem?_append_right le_rfl, Nat.sub_self, ← List.head?_eq_getElem?]
          exact hclosed.head?_ne rfl
      rw [if_neg hcolon']
      split at h
      case isFalse => exact absurd (congrArg Cut.token? h) (Option.some_ne_none found).symm
      case isTrue =>
        rw [longest_stable h hclosed, if_pos (Or.inl hle)]

theorem metadata_stable (h : Cut.metadata (piece ++ text) = ⟨1 + piece.length, some found⟩)
    (hclosed : Closed text') :
    Cut.metadata (piece ++ text') = ⟨1 + piece.length, some found⟩ := by
  rw [Cut.metadata] at h ⊢
  have hlength : ((piece ++ text).takeWhile isNameChar).length = piece.length := by
    have := congrArg Cut.length h
    simp only at this
    omega
  obtain ⟨hwhile, hname, -⟩ := takeWhile_eq_row hlength
  have hwhile' : (piece ++ text').takeWhile isNameChar = piece :=
    takeWhile_append_stop hname hclosed.stopsName
  rw [hwhile] at h
  rw [hwhile']
  exact h

theorem bare_stable {c : Char}
    (h : Cut.bare c (piece ++ text) = ⟨piece.length + 1, some found⟩) (hclosed : Closed text') :
    Cut.bare c (piece ++ text') = ⟨piece.length + 1, some found⟩ := by
  unfold Cut.bare at h ⊢
  rw [Nat.add_comm] at h ⊢
  split at h
  case h_1 => exact named_stable h hclosed
  case h_2 => exact named_stable h hclosed
  case h_3 => exact group_stable h hclosed
  case h_4 => exact metadata_stable h hclosed
  case h_5 =>
    split at h
    case h_1 mark hmark => exact h
    case h_2 hmark =>
      rw [Nat.add_comm, ← List.length_cons] at h ⊢
      exact run_stable h hclosed

/-- Any piece stays what it is before a text that closes runs. -/
theorem first_stable {c : Char}
    (h : Cut.first c (piece ++ text) = ⟨piece.length + 1, some found⟩) (hclosed : Closed text') :
    Cut.first c (piece ++ text') = ⟨piece.length + 1, some found⟩ := by
  by_cases hquote : c = '"'
  · subst hquote
    rw [first_quote] at h ⊢
    exact stringOrLabel_stable h hclosed
  · cases hquotes : Cut.quotes? c with
    | none =>
      rw [first_eq_bare hquote (Or.inl hquotes)] at h ⊢
      exact bare_stable h hclosed
    | some make =>
      cases piece with
      | nil =>
        rw [List.nil_append] at h ⊢
        rw [first_eq_bare hquote (Or.inr (hclosed.head?_ne rfl))]
        by_cases hhead : text.head? = some '"'
        · obtain ⟨inner, rfl⟩ := List.head?_eq_some_iff.mp hhead
          rw [first_eq_quoted hquotes] at h
          have hlength := lt_length_quoted 1 inner make
          rw [h] at hlength
          exact absurd hlength (Nat.lt_irrefl 1)
        · rw [first_eq_bare hquote (Or.inr hhead), ← List.nil_append text] at h
          exact bare_stable h hclosed
      | cons d inner =>
        by_cases hd : d = '"'
        · subst hd
          rw [List.cons_append, first_eq_quoted hquotes, List.length_cons, Nat.add_comm,
            Nat.add_comm inner.length, ← Nat.add_assoc] at h ⊢
          exact quoted_stable h text'
        · have hhead : ∀ post : List Char, (d :: inner ++ post).head? ≠ some '"' := by
            intro post heq
            exact hd (Option.some.inj heq)
          rw [first_eq_bare hquote (Or.inr (hhead _))] at h ⊢
          exact bare_stable h hclosed

end Lexeme

end QuantumIR
