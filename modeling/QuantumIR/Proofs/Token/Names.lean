import QuantumIR.Proofs.Token.Spelling

/-!
The spellings of names, strings and marks. A name is bare or quoted, and spells the same token
either way; what stands between quotes never ends them early.
-/

namespace QuantumIR

namespace Lexeme

open Text

/-- A text between quotes, character by character. -/
theorem toList_quoted (text : String) :
    ("\"" ++ text ++ "\"").toList = '"' :: (text.toList ++ ['"']) := by
  rw [String.toList_append, String.toList_append]
  rfl

/-- Up to the quote that closes it, a quoted form is what was written between the quotes. -/
theorem takeWhile_escape (bytes : List UInt8) (post : List Char) :
    ((escape bytes).toList ++ '"' :: post).takeWhile (· ≠ '"') = (escape bytes).toList := by
  refine takeWhile_append_stop ?_ ?_
  · intro c hc
    simpa using (printable_of_mem_escape hc).2.2
  · intro c rest heq
    cases heq
    simp

/-- A quoted form goes to its closing quote. -/
theorem quoted_escape (before : Nat) (bytes : List UInt8) (post : List Char)
    (make : List Char → Option Token) :
    Cut.quoted before ((escape bytes).toList ++ '"' :: post) make =
      ⟨before + (escape bytes).toList.length + 2, make (escape bytes).toList⟩ := by
  rw [Cut.quoted]
  simp only [takeWhile_escape]
  rw [if_pos (by simp)]

/-- No line begins inside a quoted form. -/
theorem calmFrom_escape (bytes : List UInt8) {after : List Char} (h : '\n' ∉ after) :
    Source.calmFrom false ((escape bytes).toList ++ after) := by
  refine Source.calmFrom_false_of_not_mem ?_
  rw [List.mem_append]
  rintro (hmem | hmem)
  · exact newline_not_mem_escape bytes hmem
  · exact h hmem

theorem calm_quoted (bytes : List UInt8) {after : List Char} (h : '\n' ∉ after) :
    Source.Calm ('"' :: ((escape bytes).toList ++ after)) :=
  Source.calm_cons rfl (by decide) (calmFrom_escape bytes h)

/-- A string between quotes that no colon follows. -/
theorem Spells.string (text : String) :
    Spells Closed ("\"" ++ escapeText text ++ "\"").toList [some (.string text)] := by
  rw [toList_quoted]
  have hcalm : Source.Calm ('"' :: ((escapeText text).toList ++ ['"'])) :=
    calm_quoted (utf8 text.toList) (by decide)
  refine Spells.of_first closed_nil (by decide) (by decide) hcalm ?_
  intro post hpost
  rw [List.append_assoc, List.singleton_append, first_quote]
  have hdrop : ((escapeText text).toList ++ '"' :: post).drop ((escapeText text).toList.length + 1)
      = post := by
    rw [List.drop_append]
    simp
  rw [Cut.stringOrLabel, escapeText]
  simp only [takeWhile_escape]
  rw [← escapeText, hdrop, if_neg (hpost.head?_ne (by decide)), escapeText, quoted_escape,
    ← escapeText, unquoted?_escapeText]
  simp

/-- A string of bytes. -/
theorem Spells.bytes (bytes : List UInt8) :
    Spells Anything ("c\"" ++ escape bytes ++ "\"").toList [some (.bytes bytes)] := by
  have heq : ("c\"" ++ escape bytes ++ "\"").toList =
      'c' :: '"' :: ((escape bytes).toList ++ ['"']) := by
    rw [String.toList_append, String.toList_append]
    rfl
  have hcalm : Source.calmFrom false ('"' :: ((escape bytes).toList ++ ['"'])) :=
    Source.calmFrom_mono (calm_quoted bytes (by decide)) false
  rw [heq]
  refine Spells.of_first trivial (by decide) (by decide) (Source.calm_cons rfl (by decide) hcalm) ?_
  intro post _
  rw [List.cons_append, List.append_assoc, List.singleton_append]
  rw [first_eq_quoted rfl, quoted_escape, unescape?_escape]
  rw [List.length_cons, List.length_append, List.length_singleton, Option.map_some, Cut.mk.injEq]
  exact ⟨by omega, rfl⟩

theorem calmFrom_formatName (name : String) :
    Source.calmFrom false (formatName name).toList := by
  unfold formatName
  split
  case isTrue h =>
    refine Source.calmFrom_false_of_not_mem ?_
    intro hmem
    exact absurd ((isNameChar_of_isPlainName h).2 _ hmem) (by decide)
  case isFalse h =>
    rw [toList_quoted]
    exact Source.calmFrom_mono (calm_quoted (utf8 name.toList) (by decide)) false

/-- A character that makes a token of the name after it. -/
structure IsSigil (sigil : Char) (make : String → Token) : Prop where
  space : Cut.isSpace sigil = false
  comment : sigil ≠ ';'
  blank : isBlank sigil = false
  mark : sigil ≠ '!'
  quote : sigil ≠ '"'
  quotes : Cut.quotes? sigil = some fun text => (unquoted? text).map make
  bare : ∀ rest, Cut.bare sigil rest = Cut.named rest make

theorem isSigil_percent : IsSigil '%' .localName :=
  ⟨by decide, by decide, rfl, by decide, by decide, rfl, fun _ => rfl⟩

theorem isSigil_at : IsSigil '@' .globalName :=
  ⟨by decide, by decide, rfl, by decide, by decide, rfl, fun _ => rfl⟩

/-- A name after a sigil is one token, bare or quoted. -/
theorem IsSigil.isPiece {sigil : Char} {make : String → Token} (h : IsSigil sigil make)
    (name : String) : IsPiece Closed (sigil :: (formatName name).toList) (some (make name)) := by
  refine ⟨closed_nil, sigil, _, rfl, h.space, h.comment, ?_⟩
  intro post hpost
  unfold formatName
  split
  case isTrue hplain =>
    obtain ⟨hne, hname⟩ := isNameChar_of_isPlainName hplain
    have hwhile : (name.toList ++ post).takeWhile isNameChar = name.toList :=
      takeWhile_append_stop hname fun c rest heq => hpost.not_name heq
    have hhead : (name.toList ++ post).head? ≠ some '"' := by
      obtain ⟨c, rest, heq⟩ := List.exists_cons_of_ne_nil hne
      have hc := hname c (by simp [heq])
      rw [heq, List.cons_append, List.head?_cons, ne_eq, Option.some.injEq]
      rintro rfl
      exact absurd hc (by decide)
    rw [first_eq_bare h.quote (Or.inr hhead), h.bare, Cut.named]
    simp only [hwhile]
    rw [if_neg (by simpa using hne), String.ofList_toList, Nat.add_comm]
  case isFalse hplain =>
    rw [toList_quoted, List.cons_append, List.append_assoc, List.singleton_append,
      first_eq_quoted h.quotes, escapeText, quoted_escape, ← escapeText, unquoted?_escapeText,
      Option.map_some, List.length_cons, List.length_append, List.length_singleton, Cut.mk.injEq]
    exact ⟨by omega, rfl⟩

theorem IsSigil.spells {sigil : Char} {make : String → Token} (h : IsSigil sigil make)
    (name : String) : Spells Closed (sigil :: (formatName name).toList) [some (make name)] :=
  (h.isPiece name).spells (Source.calm_cons h.blank h.mark (calmFrom_formatName name))

theorem Spells.localName (name : String) :
    Spells Closed ("%" ++ formatName name).toList [some (.localName name)] := by
  rw [String.toList_append]
  exact isSigil_percent.spells name

theorem Spells.globalName (name : String) :
    Spells Closed ("@" ++ formatName name).toList [some (.globalName name)] := by
  rw [String.toList_append]
  exact isSigil_at.spells name

/-- A bare name before a colon is a label. -/
theorem run_label {c : Char} {rest post : List Char} (hname : ∀ d ∈ c :: rest, isNameChar d) :
    Cut.first c (rest ++ ':' :: post) =
      ⟨rest.length + 2, some (.labelDef (String.ofList (c :: rest)))⟩ := by
  have hwhile : (c :: rest ++ ':' :: post).takeWhile isNameChar = c :: rest := by
    refine takeWhile_append_stop hname ?_
    intro d others heq
    cases heq
    decide
  have hbytes : c = 'c' → (rest ++ ':' :: post).head? ≠ some '"' := by
    intro _
    cases rest with
    | nil => simp
    | cons d others =>
      have hd := hname d (by simp)
      rw [List.cons_append, List.head?_cons, ne_eq, Option.some.injEq]
      rintro rfl
      exact absurd hd (by decide)
  rw [first_eq_run (hname c List.mem_cons_self) hbytes, ← List.cons_append, Cut.run]
  simp only [hwhile, List.drop_left, List.head?_cons, List.isEmpty_cons]
  simp

/-- A name before a colon is a label, bare or quoted. -/
theorem isPiece_labelDef (label : String) :
    IsPiece Anything (formatName label ++ ":").toList (some (.labelDef label)) := by
  refine ⟨trivial, ?_⟩
  unfold formatName
  split
  case isTrue h =>
    obtain ⟨hne, hname⟩ := isNameChar_of_isPlainName h
    obtain ⟨c, rest, heq⟩ := List.exists_cons_of_ne_nil hne
    rw [heq] at hname
    have hc := hname c List.mem_cons_self
    rw [String.toList_append, heq, List.cons_append]
    refine ⟨c, _, rfl, not_space_of_name hc, not_comment_of_name hc, ?_⟩
    intro post _
    rw [List.append_assoc]
    show Cut.first c (rest ++ ':' :: post) = _
    rw [run_label hname, ← heq, String.ofList_toList]
    simp
  case isFalse h =>
    rw [String.toList_append, toList_quoted, List.cons_append, List.append_assoc]
    refine ⟨'"', _, rfl, by decide, by decide, ?_⟩
    intro post _
    have hdrop : ((escapeText label).toList ++ '"' :: ':' :: post).drop
        ((escapeText label).toList.length + 1) = ':' :: post := by
      rw [List.drop_append]
      simp
    rw [List.append_assoc, first_quote]
    show Cut.stringOrLabel ((escapeText label).toList ++ '"' :: ':' :: post) = _
    rw [Cut.stringOrLabel, escapeText]
    simp only [takeWhile_escape]
    rw [← escapeText, hdrop, List.head?_cons, if_pos rfl, unquoted?_escapeText, Option.map_some,
      List.length_append]
    rfl

theorem calm_labelDef (label : String) : Source.Calm (formatName label ++ ":").toList := by
  rw [String.toList_append]
  unfold formatName
  split
  case isTrue h =>
    refine Source.calm_of_not_mem ?_
    rw [List.mem_append]
    rintro (hmem | hmem)
    · exact absurd ((isNameChar_of_isPlainName h).2 _ hmem) (by decide)
    · exact absurd hmem (by decide)
  case isFalse h =>
    rw [toList_quoted, List.cons_append, List.append_assoc]
    exact calm_quoted (utf8 label.toList) (by decide)

theorem Spells.labelDef (label : String) :
    Spells Anything (formatName label ++ ":").toList [some (.labelDef label)] :=
  (isPiece_labelDef label).spells (calm_labelDef label)

/-- The number of an attribute group, which is an error from two to the power of 32 on. -/
theorem Spells.group (n : Nat) :
    Spells Closed ("#" ++ toString n).toList
      [(Cut.word32? (Nat.toDigits 10 n)).map Token.attrGroup] := by
  rw [String.toList_append, toList_toString]
  show Spells Closed ('#' :: Nat.toDigits 10 n) _
  have hbreak : '\n' ∉ Nat.toDigits 10 n := fun h =>
    absurd (isDigit_of_mem_toDigits h) (by decide)
  refine Spells.of_first closed_nil (by decide) (by decide)
    (Source.calm_cons rfl (by decide) (Source.calmFrom_false_of_not_mem hbreak)) ?_
  intro post hpost
  have hwhile : (Nat.toDigits 10 n ++ post).takeWhile isDigit = Nat.toDigits 10 n :=
    takeWhile_append_stop (fun c hc => isDigit_of_mem_toDigits hc)
      fun c rest heq => hpost.not_digit heq
  rw [first_eq_bare (by decide) (Or.inl rfl)]
  change Cut.group _ = _
  rw [Cut.group]
  simp only [hwhile]
  rw [if_neg (by simp), Nat.add_comm]

/-- A mark is cut off whatever follows it. -/
theorem first_mark {c : Char} {mark : Mark} (h : Mark.ofChar? c = some mark)
    (rest : List Char) : Cut.first c rest = ⟨1, some (.mark mark)⟩ := by
  unfold Mark.ofChar? at h
  split at h
  case h_10 => exact absurd h (Option.some_ne_none mark).symm
  all_goals
    cases h
    rw [first_eq_bare (by decide) (Or.inl rfl)]
    rfl

theorem Spells.mark (c : Char) {mark : Mark} (h : Mark.ofChar? c = some mark) :
    Spells Anything [c] [some (.mark mark)] := by
  have hspace : Cut.isSpace c = false ∧ c ≠ ';' ∧ Source.Calm [c] := by
    unfold Mark.ofChar? at h
    split at h
    case h_10 => exact absurd h (Option.some_ne_none mark).symm
    all_goals exact ⟨rfl, by decide, rfl⟩
  obtain ⟨hspace, hcomment, hcalm⟩ := hspace
  exact Spells.of_first trivial hspace hcomment hcalm fun post _ => first_mark h post

end Lexeme

end QuantumIR
