import QuantumIR.Proofs.Token.Scanning

/-!
The spellings of single tokens. Each kind of token is spelled by the text that canonical form
writes for it, wherever that text stands. Runs are followed by a text that closes them; quoted
forms and marks may be followed by anything.
-/

namespace QuantumIR

namespace Text

theorem isNameChar_of_isDigit {c : Char} (h : isDigit c) : isNameChar c := by
  simp [isNameChar, h]

theorem isNameChar_of_isLetter {c : Char} (h : isLetter c) : isNameChar c := by
  simp [isNameChar, h]

/-- A bare name is a row of name characters. -/
theorem isNameChar_of_isPlainName {name : String} (h : isPlainName name) :
    name.toList ≠ [] ∧ ∀ c ∈ name.toList, isNameChar c := by
  unfold isPlainName at h
  split at h
  case h_1 heq => exact absurd h Bool.false_ne_true
  case h_2 d rest heq =>
    rw [heq]
    refine ⟨List.cons_ne_nil d rest, ?_⟩
    intro c hc
    split at h
    case isTrue hd =>
      rcases List.mem_cons.mp hc with rfl | hc
      · exact isNameChar_of_isDigit hd
      · exact isNameChar_of_isDigit (List.all_eq_true.mp h c hc)
    case isFalse hd =>
      rw [Bool.and_eq_true] at h
      rcases List.mem_cons.mp hc with rfl | hc
      · exact h.1
      · exact List.all_eq_true.mp h.2 c hc

/-- A row of characters that a test accepts is taken up to the first one that it refuses. -/
theorem takeWhile_append_stop {p : Char → Bool} {row post : List Char} (hrow : ∀ c ∈ row, p c)
    (hpost : ∀ c rest, post = c :: rest → p c = false) : (row ++ post).takeWhile p = row := by
  rw [List.takeWhile_append_of_pos hrow]
  cases post with
  | nil => simp
  | cons c rest => rw [List.takeWhile_cons_of_neg (by simp [hpost c rest rfl]), List.append_nil]

end Text

namespace Lexeme

open Text

theorem Closed.not_name {post : List Char} (h : Closed post) {c : Char} {rest : List Char}
    (heq : post = c :: rest) : isNameChar c = false := by
  have hc := h c rest heq
  simp only [closes, Bool.and_eq_true, Bool.not_eq_true'] at hc
  exact hc.1.1.1

theorem Closed.not_digit {post : List Char} (h : Closed post) {c : Char} {rest : List Char}
    (heq : post = c :: rest) : isDigit c = false := by
  have hc := h.not_name heq
  by_contra hdigit
  rw [isNameChar_of_isDigit (by simpa using hdigit)] at hc
  exact Bool.noConfusion hc

/-- Before a text that closes runs stands no character that goes on with one. -/
theorem Closed.ne {post : List Char} (h : Closed post) {c d : Char} {rest : List Char}
    (heq : post = c :: rest) (hd : closes d = false) : c ≠ d := by
  rintro rfl
  have hc := h c rest heq
  rw [hd] at hc
  exact Bool.noConfusion hc

theorem Closed.head?_ne {post : List Char} (h : Closed post) {d : Char} (hd : closes d = false) :
    post.head? ≠ some d := by
  cases post with
  | nil => simp
  | cons c rest =>
    rw [List.head?_cons, ne_eq, Option.some.injEq]
    exact h.ne rfl hd

theorem isNameChar_of_isWordChar {c : Char} (h : Cut.isWordChar c) : isNameChar c := by
  simp only [Cut.isWordChar, Bool.or_eq_true, decide_eq_true_eq] at h
  simp only [isNameChar, isNameMark, Bool.or_eq_true, decide_eq_true_eq]
  tauto

private theorem not_mark {c : Char} (h : isNameChar c) : Mark.ofChar? c = none := by
  unfold Mark.ofChar?
  split
  all_goals first | rfl | exact absurd h (by decide)

theorem first_quote (rest : List Char) : Cut.first '"' rest = Cut.stringOrLabel rest :=
  if_pos rfl

theorem first_eq_quoted {c : Char} {make : List Char → Option Token}
    (h : Cut.quotes? c = some make) (inner : List Char) :
    Cut.first c ('"' :: inner) = Cut.quoted 1 inner make := by
  have hquote : c ≠ '"' := by
    rintro rfl
    exact absurd h (Option.some_ne_none make).symm
  unfold Cut.first
  rw [if_neg hquote, h]
  rfl

theorem first_eq_bare {c : Char} {rest : List Char} (hquote : c ≠ '"')
    (h : Cut.quotes? c = none ∨ rest.head? ≠ some '"') : Cut.first c rest = Cut.bare c rest := by
  unfold Cut.first
  rw [if_neg hquote]
  split
  case h_1 inner hmake =>
    rcases h with h | h
    · exact absurd (hmake.symm.trans h) (Option.some_ne_none _)
    · exact absurd rfl h
  case h_2 => rfl

theorem bare_eq_run {c : Char} {rest : List Char} (h : isNameChar c) :
    Cut.bare c rest = Cut.run (c :: rest) := by
  unfold Cut.bare
  split
  case h_5 => rw [not_mark h]
  all_goals exact absurd h (by decide)

theorem quotes?_eq_none {c : Char} (h : isNameChar c) (hc : c ≠ 'c') :
    Cut.quotes? c = none := by
  unfold Cut.quotes?
  split
  case h_1 => exact absurd rfl hc
  case h_4 => rfl
  all_goals exact absurd h (by decide)

/-- A name character starts a run, unless it is the letter before a string of bytes. -/
theorem first_eq_run {c : Char} {rest : List Char} (h : isNameChar c)
    (hbytes : c = 'c' → rest.head? ≠ some '"') : Cut.first c rest = Cut.run (c :: rest) := by
  rw [first_eq_bare, bare_eq_run h]
  · rintro rfl
    exact absurd h (by decide)
  · by_cases hc : c = 'c'
    · exact Or.inr (hbytes hc)
    · exact Or.inl (quotes?_eq_none h hc)

theorem not_space_of_name {c : Char} (h : isNameChar c) : Cut.isSpace c = false := by
  by_contra hspace
  simp only [Cut.isSpace, Bool.or_eq_true, decide_eq_true_eq, Bool.not_eq_false] at hspace
  rcases hspace with ((rfl | rfl) | rfl) | rfl
  all_goals exact absurd h (by decide)

theorem not_comment_of_name {c : Char} (h : isNameChar c) : c ≠ ';' := by
  rintro rfl
  exact absurd h (by decide)

/-- A run that is one token from end to end is that token. -/
theorem Spells.run {text : List Char} {found? : Option Token} (hne : text ≠ [])
    (hname : ∀ c ∈ text, isNameChar c)
    (hlongest : ∀ post, Closed post → Cut.longest (text ++ post) = ⟨text.length, found?⟩) :
    Spells Closed text [found?] := by
  obtain ⟨c, rest, rfl⟩ := List.exists_cons_of_ne_nil hne
  have hc := hname c List.mem_cons_self
  have hmark : '!' ∉ c :: rest := fun h => absurd (hname '!' h) (by decide)
  refine Spells.of_first closed_nil (not_space_of_name hc) (not_comment_of_name hc)
    (Source.calm_of_not_mem hmark) ?_
  intro post hpost
  have hrun : (c :: rest ++ post).takeWhile isNameChar = c :: rest :=
    takeWhile_append_stop hname fun d others heq => hpost.not_name heq
  have hbytes : c = 'c' → (rest ++ post).head? ≠ some '"' := by
    intro _
    cases rest with
    | nil => exact hpost.head?_ne (by decide)
    | cons d others =>
      have hd := hname d (by simp)
      rw [List.cons_append, List.head?_cons, ne_eq, Option.some.injEq]
      rintro rfl
      exact absurd hd (by decide)
  rw [first_eq_run hc hbytes, ← List.cons_append, Cut.run]
  simp only [hrun, List.drop_left, List.isEmpty_cons, hlongest post hpost]
  rw [if_neg (by simp), if_neg (hpost.head?_ne (by decide)), if_pos (Or.inl le_rfl)]
  rfl

/-- A word spells what the word means. -/
theorem Spells.word {text : List Char} {c : Char} {rest : List Char} (heq : text = c :: rest)
    (hc : isLetter c ∨ c = '_') (hword : ∀ d ∈ text, Cut.isWordChar d) :
    Spells Closed text [Cut.wordToken? text] := by
  refine Spells.run (by simp [heq]) (fun d hd => isNameChar_of_isWordChar (hword d hd)) ?_
  intro post hpost
  have hwhile : (text ++ post).takeWhile Cut.isWordChar = text := by
    refine takeWhile_append_stop hword ?_
    intro d others hpost'
    have hname := hpost.not_name hpost'
    by_contra hd
    rw [isNameChar_of_isWordChar (by simpa using hd)] at hname
    exact Bool.noConfusion hname
  have hlongest : Cut.longest (text ++ post) =
      ⟨((text ++ post).takeWhile Cut.isWordChar).length,
        Cut.wordToken? ((text ++ post).takeWhile Cut.isWordChar)⟩ := by
    rw [heq, List.cons_append, Cut.longest, if_pos hc]
  rw [hlongest, hwhile]

theorem Spells.keyword (word : Keyword) :
    Spells Closed word.text.toList [some (.keyword word)] := by
  have hmeans : Cut.wordToken? word.text.toList = some (.keyword word) := by
    cases word <;> rfl
  have hstart : ∃ c rest, word.text.toList = c :: rest ∧ (isLetter c ∨ c = '_') := by
    cases word <;> exact ⟨_, _, rfl, by decide⟩
  have hword : word.text.toList.all Cut.isWordChar := by
    cases word <;> rfl
  obtain ⟨c, rest, heq, hc⟩ := hstart
  rw [← hmeans]
  exact Spells.word heq hc (List.all_eq_true.mp hword)

/-- A width is read back from the name of its integer type. -/
theorem word32?_toDigits (n : UInt32) : Cut.word32? (Nat.toDigits 10 n.toNat) = some n := by
  have hn := n.toNat_lt
  simp [Cut.word32?, digits?_toDigits, show n.toNat < UInt32.size from hn]

theorem isDigit_of_mem_toDigits {n : Nat} {c : Char} (h : c ∈ Nat.toDigits 10 n) : isDigit c :=
  List.all_eq_true.mp (all_isDigit_toDigits n) c h

theorem isWordChar_of_isDigit {c : Char} (h : isDigit c) : Cut.isWordChar c := by
  simp [Cut.isWordChar, h]

theorem Spells.intType (width : UInt32) :
    Spells Closed ("i" ++ toString width.toNat).toList [some (.intType width)] := by
  have heq : ("i" ++ toString width.toNat).toList = 'i' :: Nat.toDigits 10 width.toNat := by
    rw [String.toList_append, toList_toString]
    rfl
  obtain ⟨d, digits, hdigits, -⟩ := toDigits_eq_cons width.toNat
  have hmeans : Cut.wordToken? ('i' :: Nat.toDigits 10 width.toNat) = some (.intType width) := by
    have hall := all_isDigit_toDigits width.toNat
    have hvalue := word32?_toDigits width
    rw [hdigits] at hall hvalue ⊢
    rw [Cut.wordToken?, if_pos hall, hvalue, Option.map_some]
  rw [heq, ← hmeans]
  refine Spells.word rfl (Or.inl (by decide)) ?_
  intro c hc
  rcases List.mem_cons.mp hc with rfl | hc
  · decide
  · exact isWordChar_of_isDigit (isDigit_of_mem_toDigits hc)

theorem isLetter_of_isDigit {c : Char} (h : isDigit c) : isLetter c = false := by
  simp only [isDigit, Bool.and_eq_true, decide_eq_true_eq, Char.le_def,
    UInt32.le_iff_toNat_le] at h
  have hnine : c.val.toNat ≤ 57 := h.2
  have hlower : ¬ 'a' ≤ c := by
    rw [Char.le_def, UInt32.le_iff_toNat_le]
    exact Nat.not_le.mpr (Nat.lt_of_le_of_lt hnine (by decide))
  have hupper : ¬ 'A' ≤ c := by
    rw [Char.le_def, UInt32.le_iff_toNat_le]
    exact Nat.not_le.mpr (Nat.lt_of_le_of_lt hnine (by decide))
  simp [isLetter, hlower, hupper]

/-- A number is what a text starts with that begins with a minus sign or a digit. -/
theorem longest_eq_number {c : Char} {rest : List Char} (h : c = '-' ∨ isDigit c) :
    Cut.longest (c :: rest) = Cut.number (c :: rest) := by
  have hletter : isLetter c = false := by
    rcases h with rfl | h
    · decide
    · exact isLetter_of_isDigit h
  have hmark : ∀ d, isDigit d = false → d ≠ '-' → c ≠ d := by
    intro d hdigit hminus
    rcases h with rfl | h
    · exact Ne.symm hminus
    · exact isDigit_ne h hdigit
  rw [Cut.longest, if_neg, if_neg (hmark '.' (by decide) (by decide))]
  rw [hletter]
  simpa using hmark '_' (by decide) (by decide)

/-- The whole part of a number is a sign and the digits up to the first other character. -/
theorem wholeLength_append {sign digits post : List Char} (hsign : sign = [] ∨ sign = ['-'])
    (hne : digits ≠ []) (hall : ∀ c ∈ digits, isDigit c)
    (hpost : ∀ c rest, post = c :: rest → isDigit c = false) :
    Cut.wholeLength (sign ++ (digits ++ post)) = sign.length + digits.length := by
  have hwhile : (digits ++ post).takeWhile isDigit = digits := takeWhile_append_stop hall hpost
  have hempty : digits.isEmpty = false := by simpa using hne
  rcases hsign with rfl | rfl
  · have hhead : (digits ++ post).head? ≠ some '-' := by
      obtain ⟨d, rest, rfl⟩ := List.exists_cons_of_ne_nil hne
      rw [List.cons_append, List.head?_cons, ne_eq, Option.some.injEq]
      exact isDigit_ne (hall d List.mem_cons_self) (by decide)
    simp only [Cut.wholeLength, List.nil_append, if_neg hhead, List.drop_zero, hwhile, hempty]
    simp
  · simp only [Cut.wholeLength, List.singleton_append, List.head?_cons, if_true, List.drop_one,
      List.tail_cons, hwhile, hempty]
    simp

/-- Only a zero before an `x` starts a double that is given by its bits. -/
theorem bitsOfHex?_eq_none {text : List Char} (h : ∀ rest, text ≠ '0' :: 'x' :: rest) :
    Cut.bitsOfHex? text = none := by
  unfold Cut.bitsOfHex?
  split
  case h_1 rest => exact absurd rfl (h rest)
  case h_2 => rfl

/-- Neither a point nor an exponent stands at the start of a text that closes runs. -/
theorem Closed.fractionLength {post : List Char} (h : Closed post) :
    Cut.fractionLength post = 0 := by
  unfold Cut.fractionLength
  split
  case h_1 => exact absurd rfl (h.ne rfl (by decide))
  case h_2 => rfl

theorem Closed.exponentLength {post : List Char} (h : Closed post) :
    Cut.exponentLength post = 0 := by
  unfold Cut.exponentLength
  split
  case h_1 e others =>
    rw [if_neg]
    rintro (rfl | rfl)
    · exact h.ne rfl (by decide) rfl
    · exact h.ne rfl (by decide) rfl
  case h_2 => rfl

/-- The number of a sign and digits that nothing follows which could go on with it. -/
theorem number_digits {sign digits post : List Char} (hsign : sign = [] ∨ sign = ['-'])
    (hne : digits ≠ []) (hall : ∀ c ∈ digits, isDigit c) (hpost : Closed post) :
    Cut.number (sign ++ digits ++ post) =
      ⟨(sign ++ digits).length, (word64? (sign ++ digits)).map Token.integer⟩ := by
  have hwhole : Cut.wholeLength (sign ++ digits ++ post) = (sign ++ digits).length := by
    rw [List.append_assoc, wholeLength_append hsign hne hall fun c rest h => hpost.not_digit h,
      List.length_append]
  have hbits : Cut.bitsOfHex? (sign ++ digits ++ post) = none := by
    refine bitsOfHex?_eq_none ?_
    intro others heq
    obtain ⟨d, rest, rfl⟩ := List.exists_cons_of_ne_nil hne
    rcases hsign with rfl | rfl
    · cases rest with
      | nil =>
        simp only [List.nil_append, List.cons_append, List.cons.injEq] at heq
        exact hpost.ne heq.2 (by decide) rfl
      | cons e more =>
        simp only [List.nil_append, List.cons_append, List.cons.injEq] at heq
        exact isDigit_ne (hall e (by simp)) (by decide) heq.2.1
    · simp at heq
  have hpos : (sign ++ digits).length ≠ 0 := by simpa using fun _ => hne
  rw [Cut.number, hwhole, if_neg hpos, hbits]
  simp only [List.drop_left, Nat.add_zero, hpost.fractionLength, hpost.exponentLength, and_self,
    if_true, List.take_left]

/-- Digits, after a minus sign or not, spell the word they stand for. -/
theorem Spells.signedDigits {sign digits : List Char} (hsign : sign = [] ∨ sign = ['-'])
    (hne : digits ≠ []) (hall : ∀ c ∈ digits, isDigit c) :
    Spells Closed (sign ++ digits) [(word64? (sign ++ digits)).map Token.integer] := by
  have hchars : ∀ c ∈ sign ++ digits, c = '-' ∨ isDigit c := by
    intro c hc
    rcases List.mem_append.mp hc with hc | hc
    · rcases hsign with rfl | rfl
      · exact absurd hc List.not_mem_nil
      · exact Or.inl (List.mem_singleton.mp hc)
    · exact Or.inr (hall c hc)
  refine Spells.run (by simp [hne]) ?_ ?_
  · intro c hc
    rcases hchars c hc with rfl | hc
    · decide
    · exact isNameChar_of_isDigit hc
  · intro post hpost
    rw [← number_digits hsign hne hall hpost]
    obtain ⟨c, rest, heq⟩ := List.exists_cons_of_ne_nil (show sign ++ digits ≠ [] by simp [hne])
    have hc := hchars c (by simp [heq])
    rw [heq, List.cons_append, longest_eq_number hc]

theorem Spells.natural {n : Nat} (h : n < UInt64.size) :
    Spells Closed (toString n).toList [some (.integer (Int64.ofNat n))] := by
  have hspells := Spells.signedDigits (Or.inl rfl) (toDigits_ne_nil n)
    fun c hc => isDigit_of_mem_toDigits hc
  rw [List.nil_append, word64?_toDigits h, Option.map_some] at hspells
  rwa [toList_toString]

theorem Spells.integer (n : Int64) :
    Spells Closed (toString n.toInt).toList [some (.integer n)] := by
  have hvalue := word64?_toString n
  rw [toList_toString_int] at hvalue ⊢
  split at hvalue
  case isTrue h =>
    have hspells := Spells.signedDigits (Or.inr rfl) (toDigits_ne_nil n.toInt.natAbs)
      fun c hc => isDigit_of_mem_toDigits hc
    rw [List.singleton_append, hvalue, Option.map_some] at hspells
    rwa [if_pos h]
  case isFalse h =>
    have hspells := Spells.signedDigits (Or.inl rfl) (toDigits_ne_nil n.toInt.natAbs)
      fun c hc => isDigit_of_mem_toDigits hc
    rw [List.nil_append, hvalue, Option.map_some] at hspells
    rwa [if_neg h]

end Lexeme

end QuantumIR
