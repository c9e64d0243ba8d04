import QuantumIR.Proofs.Token.Stability

/-!
What stands at the start of a text depends only on what comes before the next text that closes
runs, unless it is a quoted form that goes on beyond it.
-/

namespace QuantumIR

open Text

namespace Lexeme

variable {text post : List Char}

/-- A character that goes on with a run stands before a text that closes runs, or nowhere. -/
theorem getElem?_local (hpost : Closed post) {d : Char} (hd : closes d = false) {i : Nat}
    (hi : i ≤ text.length) : (text ++ post)[i]? = some d ↔ text[i]? = some d := by
  rcases hi.lt_or_eq with hlt | rfl
  · rw [List.getElem?_append_left hlt]
  · rw [List.getElem?_append_right le_rfl, Nat.sub_self, ← List.head?_eq_getElem?,
      List.getElem?_eq_none le_rfl]
    exact ⟨fun h => absurd h (hpost.head?_ne hd), fun h => absurd h (Option.some_ne_none _).symm⟩

theorem wholeLength_le (text : List Char) : Cut.wholeLength text ≤ text.length := by
  have hwhile : ∀ rest : List Char, (rest.takeWhile isDigit).length ≤ rest.length :=
    fun rest => (List.takeWhile_prefix _).length_le
  rw [Cut.wholeLength]
  by_cases hsign : text.head? = some '-'
  · obtain ⟨rest, rfl⟩ := List.head?_eq_some_iff.mp hsign
    have := hwhile rest
    simp only [List.head?_cons, if_true, List.drop_one, List.tail_cons, List.length_cons]
    split <;> omega
  · have := hwhile text
    simp only [if_neg hsign, List.drop_zero]
    split <;> omega

theorem fractionLength_le (text : List Char) : Cut.fractionLength text ≤ text.length := by
  unfold Cut.fractionLength
  split
  · next rest =>
    have : (rest.takeWhile isDigit).length ≤ rest.length := (List.takeWhile_prefix _).length_le
    rw [List.length_cons]
    omega
  · exact Nat.zero_le _

theorem wholeLength_local (hpost : Closed post) :
    Cut.wholeLength (text ++ post) = Cut.wholeLength text := by
  have hhead : (text ++ post).head? = some '-' ↔ text.head? = some '-' := by
    cases text with
    | nil =>
      rw [List.nil_append, List.head?_nil]
      exact ⟨fun h => absurd h (hpost.head?_ne rfl), fun h => absurd h (Option.some_ne_none _).symm⟩
    | cons c rest => exact Iff.rfl
  rw [Cut.wholeLength, Cut.wholeLength]
  by_cases hsign : text.head? = some '-'
  · obtain ⟨rest, rfl⟩ := List.head?_eq_some_iff.mp hsign
    have hwhile : (rest ++ post).takeWhile isDigit = rest.takeWhile isDigit :=
      takeWhile_append_of_stops hpost.stopsDigit
    simp only [List.cons_append, List.head?_cons, if_true, List.drop_one, List.tail_cons, hwhile]
  · have hwhile : (text ++ post).takeWhile isDigit = text.takeWhile isDigit :=
      takeWhile_append_of_stops hpost.stopsDigit
    simp only [if_neg hsign, if_neg (mt hhead.mp hsign), List.drop_zero, hwhile]

theorem fractionLength_local (hpost : Closed post) :
    Cut.fractionLength (text ++ post) = Cut.fractionLength text := by
  cases text with
  | nil => exact hpost.fractionLength
  | cons c rest =>
    have hwhile : (rest ++ post).takeWhile isDigit = rest.takeWhile isDigit :=
      takeWhile_append_of_stops hpost.stopsDigit
    by_cases hc : c = '.'
    · subst hc
      exact congrArg (fun row : List Char => 1 + row.length) hwhile
    · have hzero : ∀ others : List Char, Cut.fractionLength (c :: others) = 0 := by
        intro others
        unfold Cut.fractionLength
        split
        · next heq => exact absurd (List.cons.inj heq).1 hc
        · rfl
      rw [List.cons_append, hzero, hzero]

theorem exponentLength_local (hpost : Closed post) :
    Cut.exponentLength (text ++ post) = Cut.exponentLength text := by
  cases text with
  | nil => exact hpost.exponentLength
  | cons e rest =>
    by_cases he : e = 'e' ∨ e = 'E'
    · cases rest with
      | nil =>
        cases post with
        | nil => rfl
        | cons d others =>
          have hd : isDigit d = false := hpost.not_digit rfl
          have hzero : Cut.exponentLength (e :: d :: others) = 0 := by
            rw [Cut.exponentLength, if_pos he]
            · simp [hd]
            · rintro rest heq
              exact hpost.ne rfl rfl (List.cons.inj heq).1
            · rintro rest heq
              exact hpost.ne rfl rfl (List.cons.inj heq).1
          exact hzero.trans (by simp [Cut.exponentLength])
      | cons c rest =>
        obtain ⟨sign, -, hlength⟩ := exists_exponentSign e c rest he
        have hwhile : ((c :: rest).drop sign ++ post).takeWhile isDigit =
            ((c :: rest).drop sign ++ []).takeWhile isDigit := by
          rw [takeWhile_append_of_stops hpost.stopsDigit, List.append_nil]
        have halone := hlength []
        rw [← hwhile, List.append_nil] at halone
        rw [halone, ← hlength, List.cons_append]
    · have hzero : ∀ others : List Char, Cut.exponentLength (e :: others) = 0 := by
        intro others
        rw [Cut.exponentLength.eq_def]
        simp only [if_neg he]
      rw [List.cons_append, hzero, hzero]

theorem isNameChar_of_hexValue? {c : Char} {value : Nat} (h : hexValue? c = some value) :
    isNameChar c := by
  have hletter : ∀ {first last : Char}, first ≤ c ∧ c ≤ last →
      ('a' ≤ first ∧ last ≤ 'z') ∨ ('A' ≤ first ∧ last ≤ 'Z') → isNameChar c := by
    intro first last hc hrange
    refine isNameChar_of_isLetter ?_
    simp only [isLetter, Bool.or_eq_true, Bool.and_eq_true, decide_eq_true_eq]
    exact hrange.imp (fun h => ⟨le_trans h.1 hc.1, le_trans hc.2 h.2⟩)
      fun h => ⟨le_trans h.1 hc.1, le_trans hc.2 h.2⟩
  rw [hexValue?] at h
  split at h
  case isTrue hc => exact isNameChar_of_isDigit (by simpa [isDigit] using hc)
  case isFalse =>
    split at h
    case isTrue hc => exact hletter hc (Or.inr (by decide))
    case isFalse =>
      split at h
      case isTrue hc => exact hletter hc (Or.inl (by decide))
      case isFalse => exact absurd h (Option.some_ne_none value).symm

theorem Closed.hexValue?_eq_none {c : Char} {rest : List Char} (h : Closed (c :: rest)) :
    hexValue? c = none := by
  cases hvalue : hexValue? c with
  | none => rfl
  | some value =>
    have hname := h.not_name rfl
    rw [isNameChar_of_hexValue? hvalue] at hname
    exact Bool.noConfusion hname

/-- A row of so many hexadecimal digits ends before a text that closes runs. -/
theorem hexDigits_local (hpost : Closed post) (n : Nat) (make : List Nat → Double) :
    (((text ++ post).take n).mapM hexValue?).bind
        (fun digits => if digits.length = n then some (make digits) else none) =
      ((text.take n).mapM hexValue?).bind
        (fun digits => if digits.length = n then some (make digits) else none) := by
  induction text generalizing n make with
  | nil =>
    cases n with
    | zero => rfl
    | succ n =>
      cases post with
      | nil => rfl
      | cons d others => simp [List.mapM_cons, hpost.hexValue?_eq_none]
  | cons c rest ih =>
    cases n with
    | zero => rfl
    | succ n =>
      simp only [List.cons_append, List.take_succ_cons, List.mapM_cons]
      cases hexValue? c with
      | none => rfl
      | some value =>
        have hrest := ih n fun digits => make (value :: digits)
        simpa [Option.bind_assoc] using hrest

theorem bitsOfHex?_local (hpost : Closed post) :
    Cut.bitsOfHex? (text ++ post) = Cut.bitsOfHex? text := by
  match text with
  | [] =>
    refine bitsOfHex?_eq_none ?_
    intro rest heq
    exact hpost.ne heq rfl rfl
  | [c] =>
    refine (bitsOfHex?_eq_none ?_).trans (bitsOfHex?_eq_none ?_).symm
    · intro rest heq
      exact hpost.ne (List.cons.inj heq).2 rfl rfl
    · intro rest heq
      exact List.cons_ne_nil _ _ (List.cons.inj heq).2.symm
  | c :: d :: rest =>
    by_cases hzero : c = '0' ∧ d = 'x'
    · obtain ⟨rfl, rfl⟩ := hzero
      exact hexDigits_local hpost 16 _
    · have hnone : ∀ others : List Char, Cut.bitsOfHex? (c :: d :: others) = none := by
        intro others
        refine bitsOfHex?_eq_none ?_
        intro rest heq
        simp only [List.cons.injEq] at heq
        exact hzero ⟨heq.1, heq.2.1⟩
      rw [List.cons_append, List.cons_append, hnone, hnone]

theorem exponentLength_le (text : List Char) : Cut.exponentLength text ≤ text.length := by
  cases text with
  | nil => exact Nat.le_refl 0
  | cons e rest =>
    by_cases he : e = 'e' ∨ e = 'E'
    · cases rest with
      | nil => simp [Cut.exponentLength]
      | cons c rest =>
        obtain ⟨sign, hsign, hlength⟩ := exists_exponentSign e c rest he
        have halone := hlength []
        rw [List.append_nil, List.append_nil] at halone
        have hdigits : (((c :: rest).drop sign).takeWhile isDigit).length ≤
            ((c :: rest).drop sign).length := (List.takeWhile_prefix _).length_le
        rw [List.length_drop] at hdigits
        rw [halone, List.length_cons]
        split <;> omega
    · rw [Cut.exponentLength.eq_def]
      simp only [if_neg he]
      exact Nat.zero_le _

/-- The number at the start of a text is all before a text that closes runs. -/
theorem number_local (hpost : Closed post) : Cut.number (text ++ post) = Cut.number text := by
  have hwhole := wholeLength_le text
  have hfraction := fractionLength_le (text.drop (Cut.wholeLength text))
  rw [List.length_drop] at hfraction
  have hexponent := exponentLength_le (text.drop (Cut.wholeLength text +
    Cut.fractionLength (text.drop (Cut.wholeLength text))))
  rw [List.length_drop] at hexponent
  rw [Cut.number, Cut.number, wholeLength_local hpost, bitsOfHex?_local hpost,
    List.drop_append_of_le_length hwhole, fractionLength_local hpost]
  simp only
  rw [List.drop_append_of_le_length (by omega), exponentLength_local hpost,
    List.take_append_of_le_length (by omega)]

theorem longest_local {c : Char} {rest : List Char} (hpost : Closed post) :
    Cut.longest (c :: rest ++ post) = Cut.longest (c :: rest) := by
  have hword : (c :: rest ++ post).takeWhile Cut.isWordChar =
      (c :: rest).takeWhile Cut.isWordChar :=
    takeWhile_append_of_stops (hpost.stops fun _ => isNameChar_of_isWordChar)
  have hpoints : (c :: rest ++ post).take 3 = ['.', '.', '.'] ↔
      (c :: rest).take 3 = ['.', '.', '.'] := by
    have hpoint : ∀ count others, post.take count ≠ '.' :: others := by
      intro count others heq
      obtain ⟨more, hmore⟩ := heq ▸ List.take_prefix count post
      exact hpost.ne hmore.symm rfl rfl
    match rest with
    | [] => simp [hpoint]
    | [d] => simp [hpoint]
    | d :: e :: more => exact Iff.rfl
  rw [List.cons_append, Cut.longest, Cut.longest, ← List.cons_append, hword, number_local hpost]
  simp only [hpoints]

theorem run_local {c : Char} {rest : List Char} (hpost : Closed post) :
    Cut.run (c :: rest ++ post) = Cut.run (c :: rest) := by
  have hwhile : (c :: rest ++ post).takeWhile isNameChar = (c :: rest).takeWhile isNameChar :=
    takeWhile_append_of_stops hpost.stopsName
  have hcolon : (c :: rest ++ post)[((c :: rest).takeWhile isNameChar).length]? = some ':' ↔
      (c :: rest)[((c :: rest).takeWhile isNameChar).length]? = some ':' :=
    getElem?_local hpost rfl (List.takeWhile_prefix _).length_le
  rw [Cut.run, Cut.run, hwhile, longest_local hpost]
  simp only [List.head?_drop, hcolon]

/-- A text that does not end inside a quoted form is taken up to the quote. -/
theorem takeWhile_append_of_lt {p : Char → Bool} (h : (text.takeWhile p).length < text.length)
    (post : List Char) : (text ++ post).takeWhile p = text.takeWhile p := by
  rw [List.takeWhile_append, if_neg h.ne]

/-- A quoted form that does not end before a text that closes runs goes on with it. -/
theorem length_lt_takeWhile (hpost : Closed post) (hne : post ≠ [])
    (h : ¬ (text.takeWhile (· ≠ '"')).length < text.length) :
    text.length < ((text ++ post).takeWhile (· ≠ '"')).length := by
  have hle : (text.takeWhile (· ≠ '"')).length ≤ text.length := (List.takeWhile_prefix _).length_le
  obtain ⟨d, others, rfl⟩ := List.exists_cons_of_ne_nil hne
  have hd : d ≠ '"' := hpost.ne rfl rfl
  rw [List.takeWhile_append, if_pos (by omega), List.takeWhile_cons_of_pos (by simpa using hd),
    List.length_append, List.length_cons]
  omega

theorem lt_length_quoted_append {before : Nat} {make : List Char → Option Token}
    (hpost : Closed post) (hne : post ≠ [])
    (h : ¬ (text.takeWhile (· ≠ '"')).length < text.length) :
    before + 1 + text.length < (Cut.quoted before (text ++ post) make).length := by
  have hlong := length_lt_takeWhile hpost hne h
  have := List.length_pos_iff.mpr hne
  rw [Cut.quoted]
  split
  · simp only
    omega
  · simp only [List.length_append]
    omega

theorem quoted_local {before : Nat} {make : List Char → Option Token}
    (h : (Cut.quoted before (text ++ post) make).length ≤ before + 1 + text.length)
    (hpost : Closed post) (hne : post ≠ []) (post' : List Char) :
    Cut.quoted before (text ++ post') make = Cut.quoted before (text ++ post) make := by
  by_cases hlt : (text.takeWhile (· ≠ '"')).length < text.length
  · have hquoted : ∀ post : List Char, Cut.quoted before (text ++ post) make =
        ⟨before + (text.takeWhile (· ≠ '"')).length + 2, make (text.takeWhile (· ≠ '"'))⟩ := by
      intro post
      rw [Cut.quoted, takeWhile_append_of_lt hlt, if_pos]
      rw [List.length_append]
      omega
    rw [hquoted, hquoted]
  · exact absurd h (Nat.not_le.mpr (lt_length_quoted_append hpost hne hlt))

theorem stringOrLabel_local {post' : List Char}
    (h : (Cut.stringOrLabel (text ++ post)).length ≤ 1 + text.length) (hpost : Closed post)
    (hne : post ≠ []) (hpost' : Closed post') :
    Cut.stringOrLabel (text ++ post') = Cut.stringOrLabel (text ++ post) := by
  by_cases hlt : (text.takeWhile (· ≠ '"')).length < text.length
  · have hcolon := getElem?_local (d := ':') hpost rfl hlt
    have hcolon' := getElem?_local (d := ':') hpost' rfl hlt
    rw [Cut.stringOrLabel] at h ⊢
    rw [Cut.stringOrLabel]
    simp only [takeWhile_append_of_lt hlt, List.head?_drop] at h ⊢
    by_cases hlabel : text[(text.takeWhile (· ≠ '"')).length + 1]? = some ':'
    · rw [if_pos (hcolon.mpr hlabel), if_pos (hcolon'.mpr hlabel)]
    · rw [if_neg (mt hcolon.mp hlabel)] at h ⊢
      rw [if_neg (mt hcolon'.mp hlabel)]
      exact quoted_local (by omega) hpost hne post'
  · exfalso
    rw [Cut.stringOrLabel] at h
    split at h
    · have hlong := length_lt_takeWhile hpost hne hlt
      simp only at h
      omega
    · rw [← Nat.zero_add (1 + text.length), ← Nat.add_assoc] at h
      exact absurd h (Nat.not_le.mpr (lt_length_quoted_append hpost hne hlt))

theorem bare_local {c : Char} (hpost : Closed post) :
    Cut.bare c (text ++ post) = Cut.bare c text := by
  have hname : (text ++ post).takeWhile isNameChar = text.takeWhile isNameChar :=
    takeWhile_append_of_stops hpost.stopsName
  have hdigits : (text ++ post).takeWhile isDigit = text.takeWhile isDigit :=
    takeWhile_append_of_stops hpost.stopsDigit
  unfold Cut.bare
  split
  · rw [Cut.named, Cut.named, hname]
  · rw [Cut.named, Cut.named, hname]
  · rw [Cut.group, Cut.group, hdigits]
  · rw [Cut.metadata, Cut.metadata, hname]
  · rw [← List.cons_append, run_local hpost]

/-- A piece that ends before a text that closes runs does not depend on that text. -/
theorem first_local {c : Char} {post' : List Char}
    (h : (Cut.first c (text ++ post)).length ≤ text.length + 1) (hpost : Closed post)
    (hne : post ≠ []) (hpost' : Closed post') :
    Cut.first c (text ++ post') = Cut.first c (text ++ post) := by
  by_cases hquote : c = '"'
  · subst hquote
    rw [first_quote] at h
    rw [first_quote, first_quote]
    exact stringOrLabel_local (by omega) hpost hne hpost'
  · cases hquotes : Cut.quotes? c with
    | none =>
      rw [first_eq_bare hquote (Or.inl hquotes), first_eq_bare hquote (Or.inl hquotes),
        bare_local hpost, bare_local hpost']
    | some make =>
      by_cases hhead : text.head? = some '"'
      · obtain ⟨inner, rfl⟩ := List.head?_eq_some_iff.mp hhead
        rw [List.cons_append, first_eq_quoted hquotes] at h ⊢
        rw [List.cons_append, first_eq_quoted hquotes]
        rw [List.length_cons] at h
        exact quoted_local (by omega) hpost hne post'
      · have hbare : ∀ post, Closed post → Cut.first c (text ++ post) = Cut.bare c text := by
          intro post hpost
          rw [first_eq_bare hquote, bare_local hpost]
          right
          cases text with
          | nil => exact hpost.head?_ne rfl
          | cons d rest => exact hhead
        rw [hbare _ hpost, hbare _ hpost']

end Lexeme

end QuantumIR
