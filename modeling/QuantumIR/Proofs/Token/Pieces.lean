import QuantumIR.Proofs.Token.Locality

/-!
The pieces that a text is cut into, one after the other. Up to a mark or to the end of a piece, a
text is cut into the same pieces before any text that closes runs, and wherever it stands.
-/

namespace QuantumIR

open Text

namespace Cut

theorem length_takeWhile_le (p : Char → Bool) (text : List Char) :
    (text.takeWhile p).length ≤ text.length :=
  (List.takeWhile_prefix _).length_le

variable {found : Token} {n : Nat} {text : List Char}

theorem length_of_mapM {row : List Char} {digits : List Nat}
    (h : row.mapM hexValue? = some digits) : digits.length = row.length := by
  induction row generalizing digits with
  | nil =>
    cases h
    rfl
  | cons c rest ih =>
    rw [List.mapM_cons] at h
    obtain ⟨value, -, h⟩ := Option.bind_eq_some_iff.mp h
    obtain ⟨values, hvalues, h⟩ := Option.bind_eq_some_iff.mp h
    cases h
    rw [List.length_cons, List.length_cons, ih hvalues]

theorem length_of_bitsOfHex? {x : Double} (h : bitsOfHex? text = some x) : 18 ≤ text.length := by
  obtain ⟨rest, rfl⟩ := Lexeme.exists_of_bitsOfHex? h
  obtain ⟨digits, hdigits, h⟩ := Option.bind_eq_some_iff.mp h
  split at h
  case isTrue hlength =>
    have hrest := length_of_mapM hdigits
    rw [List.length_take] at hrest
    rw [List.length_cons, List.length_cons]
    omega
  case isFalse => exact absurd h (Option.some_ne_none x).symm

theorem number_bounds (h : number text = ⟨n, some found⟩) : 0 < n ∧ n ≤ text.length := by
  have hwhole := Lexeme.wholeLength_le text
  have hfraction := Lexeme.fractionLength_le (text.drop (wholeLength text))
  rw [List.length_drop] at hfraction
  have hexponent := Lexeme.exponentLength_le (text.drop (wholeLength text +
    fractionLength (text.drop (wholeLength text))))
  rw [List.length_drop] at hexponent
  rw [number] at h
  split at h
  case isTrue => exact absurd (congrArg Cut.token? h) (Option.some_ne_none found).symm
  case isFalse hne =>
    split at h
    · next x hbits =>
      have hlength : 18 = n := congrArg Cut.length h
      have := length_of_bitsOfHex? hbits
      omega
    · simp only at h
      split at h
      · have := congrArg Cut.length h
        simp only at this
        omega
      · have := congrArg Cut.length h
        simp only at this
        omega

theorem longest_bounds {c : Char} {rest : List Char}
    (h : longest (c :: rest) = ⟨n, some found⟩) : 0 < n ∧ n ≤ (c :: rest).length := by
  rw [longest] at h
  split at h
  case isTrue hc =>
    have hlength : ((c :: rest).takeWhile isWordChar).length = n := congrArg Cut.length h
    have hword : isWordChar c := by
      rcases hc with hc | rfl
      · simp [isWordChar, hc]
      · decide
    have hpos : 0 < ((c :: rest).takeWhile isWordChar).length := by
      rw [List.takeWhile_cons_of_pos hword]
      exact Nat.succ_pos _
    have := length_takeWhile_le isWordChar (c :: rest)
    omega
  case isFalse =>
    split at h
    case isTrue =>
      split at h
      case isTrue htake =>
        have hlength := congrArg List.length htake
        rw [List.length_take] at hlength
        have : 3 = n := congrArg Cut.length h
        simp only [List.length_cons, List.length_nil] at hlength ⊢
        omega
      case isFalse => exact absurd (congrArg Cut.token? h) (Option.some_ne_none found).symm
    case isFalse => exact number_bounds h

theorem run_bounds {c : Char} {rest : List Char}
    (h : run (c :: rest) = ⟨n, some found⟩) : 0 < n ∧ n ≤ (c :: rest).length := by
  rw [run] at h
  simp only [List.head?_drop] at h
  split at h
  case isTrue => exact absurd (congrArg Cut.token? h) (Option.some_ne_none found).symm
  case isFalse =>
    split at h
    case isTrue hcolon =>
      have hlength := congrArg Cut.length h
      have hlt := (List.getElem?_eq_some_iff.mp hcolon).1
      simp only at hlength
      omega
    case isFalse =>
      split at h
      case isTrue => exact longest_bounds h
      case isFalse => exact absurd (congrArg Cut.token? h) (Option.some_ne_none found).symm

theorem bare_bounds {c : Char} {rest : List Char} (h : bare c rest = ⟨n, some found⟩) :
    0 < n ∧ n ≤ rest.length + 1 := by
  have hname := length_takeWhile_le isNameChar rest
  have hdigits := length_takeWhile_le isDigit rest
  have hnamed : ∀ make, named rest make = ⟨n, some found⟩ → 0 < n ∧ n ≤ rest.length + 1 := by
    intro make hnamed
    rw [named] at hnamed
    split at hnamed
    · exact absurd (congrArg Cut.token? hnamed) (Option.some_ne_none found).symm
    · have := congrArg Cut.length hnamed
      simp only at this
      omega
  unfold bare at h
  split at h
  case h_1 => exact hnamed _ h
  case h_2 => exact hnamed _ h
  case h_3 =>
    rw [group] at h
    split at h
    · exact absurd (congrArg Cut.token? h) (Option.some_ne_none found).symm
    · have := congrArg Cut.length h
      simp only at this
      omega
  case h_4 =>
    have := congrArg Cut.length h
    rw [metadata] at this
    simp only at this
    omega
  case h_5 =>
    split at h
    · have : 1 = n := congrArg Cut.length h
      omega
    · exact run_bounds h

theorem quoted_bounds {before : Nat} {rest : List Char} {make : List Char → Option Token}
    (h : quoted before rest make = ⟨n, some found⟩) : before < n ∧ n ≤ before + 1 + rest.length := by
  rw [quoted] at h
  split at h
  case isTrue =>
    have := congrArg Cut.length h
    simp only at this
    omega
  case isFalse => exact absurd (congrArg Cut.token? h) (Option.some_ne_none found).symm

/-- A token takes at least one character, and no more than there are. -/
theorem first_bounds {c : Char} {rest : List Char} (h : first c rest = ⟨n, some found⟩) :
    0 < n ∧ n ≤ rest.length + 1 := by
  by_cases hquote : c = '"'
  · subst hquote
    rw [Lexeme.first_quote, stringOrLabel] at h
    simp only [List.head?_drop] at h
    split at h
    case isTrue hcolon =>
      have hlength := congrArg Cut.length h
      have hlt := (List.getElem?_eq_some_iff.mp hcolon).1
      simp only at hlength
      omega
    case isFalse =>
      have := quoted_bounds h
      omega
  · cases hquotes : quotes? c with
    | none =>
      rw [Lexeme.first_eq_bare hquote (Or.inl hquotes)] at h
      exact bare_bounds h
    | some make =>
      by_cases hhead : rest.head? = some '"'
      · obtain ⟨inner, rfl⟩ := List.head?_eq_some_iff.mp hhead
        rw [Lexeme.first_eq_quoted hquotes] at h
        have := quoted_bounds h
        rw [List.length_cons]
        omega
      · rw [Lexeme.first_eq_bare hquote (Or.inr hhead)] at h
        exact bare_bounds h

/-- The tokens that a text which starts with a given character may start with. -/
inductive Starts (c : Char) : Token → Prop where
  | mark {mark : Mark} (h : Mark.ofChar? c = some mark) : Starts c (.mark mark)
  | ellipsis : Starts c (.mark .ellipsis)
  | word {found : Token} (hc : isLetter c ∨ c = '_') {text : List Char}
      (h : wordToken? text = some found) : Starts c found
  | integer (n : Int64) : Starts c (.integer n)
  | float (x : Double) : Starts c (.float x)
  | string (text : String) : Starts c (.string text)
  | bytes (bytes : List UInt8) : Starts c (.bytes bytes)
  | localName (name : String) : Starts c (.localName name)
  | globalName (name : String) : Starts c (.globalName name)
  | group (number : UInt32) : Starts c (.attrGroup number)
  | metadata (name : String) : Starts c (.metadata name)
  | labelDef (name : String) : Starts c (.labelDef name)

theorem starts_quoted {c : Char} {before : Nat} {rest : List Char}
    {make : List Char → Option Token} (hmake : ∀ inner found, make inner = some found → Starts c found)
    (h : (quoted before rest make).token? = some found) : Starts c found := by
  rw [quoted] at h
  split at h
  case isTrue => exact hmake _ _ h
  case isFalse => exact absurd h (Option.some_ne_none found).symm

theorem starts_longest {c : Char} {rest : List Char}
    (h : (longest (c :: rest)).token? = some found) : Starts c found := by
  rw [longest] at h
  split at h
  case isTrue hc => exact Starts.word hc h
  case isFalse =>
    split at h
    case isTrue =>
      split at h
      · cases h
        exact Starts.ellipsis
      · exact absurd h (Option.some_ne_none found).symm
    case isFalse =>
      rw [number] at h
      split at h
      case isTrue => exact absurd h (Option.some_ne_none found).symm
      case isFalse =>
        split at h
        · cases h
          apply Starts.float
        · simp only at h
          split at h
          · obtain ⟨_, -, rfl⟩ := Option.map_eq_some_iff.mp h
            apply Starts.integer
          · cases h
            apply Starts.float

theorem starts_run {c : Char} {rest : List Char}
    (h : (run (c :: rest)).token? = some found) : Starts c found := by
  rw [run] at h
  split at h
  case isTrue => exact absurd h (Option.some_ne_none found).symm
  case isFalse =>
    split at h
    case isTrue =>
      cases h
      apply Starts.labelDef
    case isFalse =>
      simp only at h
      split at h
      case isTrue => exact starts_longest h
      case isFalse => exact absurd h (Option.some_ne_none found).symm

theorem starts_bare {c : Char} {rest : List Char}
    (h : (bare c rest).token? = some found) : Starts c found := by
  have hnamed : ∀ make, (named rest make).token? = some found → ∃ name, found = make name := by
    intro make hnamed
    rw [named] at hnamed
    split at hnamed
    · exact absurd hnamed (Option.some_ne_none found).symm
    · exact ⟨_, (Option.some.inj hnamed).symm⟩
  unfold bare at h
  split at h
  case h_1 =>
    obtain ⟨name, rfl⟩ := hnamed _ h
    apply Starts.localName
  case h_2 =>
    obtain ⟨name, rfl⟩ := hnamed _ h
    apply Starts.globalName
  case h_3 =>
    rw [group] at h
    split at h
    · exact absurd h (Option.some_ne_none found).symm
    · obtain ⟨number, -, rfl⟩ := Option.map_eq_some_iff.mp h
      apply Starts.group
  case h_4 =>
    cases h
    apply Starts.metadata
  case h_5 =>
    split at h
    · next mark hmark =>
      cases h
      exact Starts.mark hmark
    · exact starts_run h

theorem starts_of_quotes? {c : Char} {make : List Char → Option Token}
    (h : quotes? c = some make) {inner : List Char} (hfound : make inner = some found) :
    Starts c found := by
  unfold quotes? at h
  split at h
  case h_4 => exact absurd h (Option.some_ne_none make).symm
  all_goals
    cases h
    obtain ⟨_, -, rfl⟩ := Option.map_eq_some_iff.mp hfound
  · apply Starts.bytes
  · apply Starts.localName
  · apply Starts.globalName

theorem starts_first {c : Char} {rest : List Char} (h : (first c rest).token? = some found) :
    Starts c found := by
  by_cases hquote : c = '"'
  · subst hquote
    rw [Lexeme.first_quote, stringOrLabel] at h
    split at h
    · obtain ⟨_, -, rfl⟩ := Option.map_eq_some_iff.mp h
      apply Starts.labelDef
    · refine starts_quoted ?_ h
      intro inner found hfound
      obtain ⟨_, -, rfl⟩ := Option.map_eq_some_iff.mp hfound
      apply Starts.string
  · cases hquotes : quotes? c with
    | none =>
      rw [Lexeme.first_eq_bare hquote (Or.inl hquotes)] at h
      exact starts_bare h
    | some make =>
      by_cases hhead : rest.head? = some '"'
      · obtain ⟨inner, rfl⟩ := List.head?_eq_some_iff.mp hhead
        rw [Lexeme.first_eq_quoted hquotes] at h
        exact starts_quoted (fun _ _ hfound => starts_of_quotes? hquotes hfound) h
      · rw [Lexeme.first_eq_bare hquote (Or.inr hhead)] at h
        exact starts_bare h

end Cut

namespace Lexeme

/-- The place of a piece. -/
def span : Lexeme → Span
  | token _ span => span
  | invalid _ span => span

/-- The same piece so many bytes later. -/
def shift (count : Nat) : Lexeme → Lexeme
  | token found span => .token found ⟨span.start + count, span.stop + count⟩
  | invalid text span => .invalid text ⟨span.start + count, span.stop + count⟩

theorem span_ofCut (found? : Option Token) (text : List Char) (start : Nat) :
    (ofCut found? text start).span = ⟨start, start + byteCount text⟩ := by
  cases found? <;> rfl

theorem span_shift (count : Nat) (lexeme : Lexeme) :
    (lexeme.shift count).span = ⟨lexeme.span.start + count, lexeme.span.stop + count⟩ := by
  cases lexeme <;> rfl

theorem token?_shift (count : Nat) (lexeme : Lexeme) :
    (lexeme.shift count).token? = lexeme.token? := by
  cases lexeme <;> rfl

theorem shift_injective (count : Nat) : Function.Injective (shift count) := by
  rintro (⟨token, ⟨start, stop⟩⟩ | ⟨text, ⟨start, stop⟩⟩)
    (⟨token', ⟨start', stop'⟩⟩ | ⟨text', ⟨start', stop'⟩⟩) h
  all_goals simp_all [shift]

theorem shift_ofCut (found? : Option Token) (text : List Char) (start count : Nat) :
    (ofCut found? text start).shift count = ofCut found? text (start + count) := by
  cases found? with
  | none => rw [ofCut, ofCut, shift, Nat.add_right_comm]
  | some found => rw [ofCut, ofCut, shift, Nat.add_right_comm]

variable {start : Nat}

/-- Scanning cuts one piece off a text that starts with neither white space nor a comment. -/
theorem scanFrom_first {c : Char} (hspace : Cut.isSpace c = false) (hcomment : c ≠ ';')
    (start : Nat) (rest : List Char) :
    scanFrom start (c :: rest) =
      ofCut (Cut.first c rest).token? (c :: rest.take ((Cut.first c rest).length - 1)) start ::
        scanFrom
          (start + byteCount (c :: rest.take ((Cut.first c rest).length - 1)))
          (rest.drop ((Cut.first c rest).length - 1)) := by
  rw [scanFrom, if_neg (by rw [hspace]; exact Bool.false_ne_true), if_neg hcomment]
  obtain ⟨length, found?⟩ := Cut.first c rest
  cases found? <;> rfl

/-- A text is cut alike wherever it stands. -/
theorem scanFrom_add (start count : Nat) (text : List Char) :
    scanFrom (start + count) text = (scanFrom start text).map (shift count) := by
  induction start, text using scanFrom.induct with
  | case1 start => simp [scanFrom]
  | case2 start c rest hspace ih =>
    rw [scanFrom, if_pos hspace, scanFrom, if_pos hspace, ← ih, Nat.add_right_comm]
  | case3 start rest comment hspace ih =>
    rw [scanFrom, if_neg hspace, if_pos rfl, scanFrom, if_neg hspace, if_pos rfl, ← ih,
      Nat.add_right_comm start count, Nat.add_right_comm (start + 1)]
  | case4 start c rest hspace hcomment cut piece stop ih =>
    rw [Bool.not_eq_true] at hspace
    rw [scanFrom_first hspace hcomment, scanFrom_first hspace hcomment, List.map_cons, shift_ofCut,
      ← ih, Nat.add_right_comm]

theorem utf8Size_of_isSpace {c : Char} (h : Cut.isSpace c) : c.utf8Size = 1 := by
  simp only [Cut.isSpace, Bool.or_eq_true, decide_eq_true_eq] at h
  rcases h with ((rfl | rfl) | rfl) | rfl <;> rfl

theorem newline_of_drop {rest more : List Char} {d : Char}
    (h : rest.drop (rest.takeWhile (· ≠ '\n')).length = d :: more) : d = '\n' := by
  induction rest with
  | nil => exact absurd h (List.cons_ne_nil d more).symm
  | cons c rest ih =>
    by_cases hc : c = '\n'
    · rw [List.takeWhile_cons_of_neg (by simpa using hc)] at h
      exact (List.cons.inj h).1.symm.trans hc
    · rw [List.takeWhile_cons_of_pos (by simpa using hc)] at h
      exact ih h

/-- A piece stands after a gap of white space and comments. -/
theorem exists_piece {start : Nat} {text : List Char} {lexeme : Lexeme} {others : List Lexeme}
    (h : scanFrom start text = lexeme :: others) :
    ∃ gap c rest, text = gap ++ c :: rest ∧ Cut.isSpace c = false ∧ c ≠ ';' ∧
      ∀ post, scanFrom start (gap ++ c :: post) = scanFrom (start + byteCount gap) (c :: post) := by
  induction start, text using scanFrom.induct with
  | case1 start =>
    rw [scanFrom] at h
    exact absurd h (List.cons_ne_nil _ _).symm
  | case2 start space rest hspace ih =>
    rw [scanFrom, if_pos hspace] at h
    obtain ⟨gap, c, post, rfl, hc, hcomment, hskip⟩ := ih h
    refine ⟨space :: gap, c, post, rfl, hc, hcomment, ?_⟩
    intro post
    rw [List.cons_append, scanFrom, if_pos hspace, hskip, byteCount, utf8Size_of_isSpace hspace,
      Nat.add_assoc]
  | case3 start rest comment hspace ih =>
    rw [scanFrom, if_neg hspace, if_pos rfl] at h
    obtain ⟨gap, c, post, hrest, hc, hcomment, hskip⟩ := ih h
    -- the comment ends where its line does, and the line break belongs to the gap
    obtain ⟨others, rfl⟩ : ∃ others, gap = '\n' :: others := by
      cases gap with
      | nil =>
        rw [newline_of_drop hrest] at hc
        exact Bool.noConfusion hc
      | cons d others => exact ⟨others, by rw [newline_of_drop hrest]⟩
    have hrow : ∀ d ∈ comment, decide (d ≠ '\n') := by
      intro d hd
      have hmem := List.mem_takeWhile_imp hd
      exact hmem
    refine ⟨';' :: comment ++ '\n' :: others, c, post, ?_, hc, hcomment, ?_⟩
    · rw [List.append_assoc, List.cons_append, ← hrest]
      exact congrArg _ (List.prefix_iff_eq_append.mp (List.takeWhile_prefix _)).symm
    · intro post
      have hwhile : (comment ++ ('\n' :: others ++ c :: post)).takeWhile (· ≠ '\n') = comment :=
        takeWhile_append_stop hrow (by simp)
      rw [List.append_assoc, List.cons_append, scanFrom, if_neg hspace, if_pos rfl]
      simp only [hwhile, List.drop_left]
      rw [hskip, byteCount_append, ← Nat.add_assoc]
      exact congrArg (fun count => scanFrom (count + _) _) (Nat.add_assoc start 1 _)
  | case4 start c rest hspace hcomment cut piece stop ih =>
    rw [Bool.not_eq_true] at hspace
    exact ⟨[], c, rest, rfl, hspace, hcomment, fun post => rfl⟩

/-- The front of a text is cut into some pieces, whatever follows, as long as what follows keeps
its distance. -/
def CutAs (after : List Char → Prop) (start : Nat) (front : List Char) (pieces : List Lexeme) :
    Prop :=
  ∀ post, after post →
    scanFrom start (front ++ post) = pieces ++ scanFrom (start + byteCount front) post

theorem CutAs.append {after : List Char → Prop} {start : Nat} {front front' : List Char}
    {pieces pieces' : List Lexeme} (h : CutAs Anything start front pieces)
    (h' : CutAs after (start + byteCount front) front' pieces') :
    CutAs after start (front ++ front') (pieces ++ pieces') := by
  intro post hpost
  rw [List.append_assoc, h _ trivial, h' post hpost, byteCount_append, List.append_assoc,
    Nat.add_assoc]

/-- A token is cut off with the gap before it. -/
theorem cutAs_token {start : Nat} {text : List Char} {found : Token} {span : Span}
    {others : List Lexeme} (h : scanFrom start text = .token found span :: others) :
    ∃ front more, text = front ++ more ∧ span.stop = start + byteCount front ∧
      scanFrom (start + byteCount front) more = others ∧
      CutAs Closed start front [.token found span] := by
  obtain ⟨gap, c, rest, rfl, hspace, hcomment, hskip⟩ := exists_piece h
  rw [hskip, scanFrom_first hspace hcomment] at h
  obtain ⟨hfound, hothers⟩ := List.cons.inj h
  obtain ⟨n, hn⟩ : ∃ n, n = (Cut.first c rest).length - 1 := ⟨_, rfl⟩
  rw [← hn] at hfound hothers
  cases htoken : (Cut.first c rest).token? with
  | none =>
    rw [htoken, ofCut] at hfound
    exact absurd hfound (by simp)
  | some token =>
    have hcut : Cut.first c rest = ⟨(Cut.first c rest).length, some token⟩ := by rw [← htoken]
    have hbounds := Cut.first_bounds hcut
    have hcut' : Cut.first c (rest.take n ++ rest.drop n) =
        ⟨(rest.take n).length + 1, some token⟩ := by
      rw [List.take_append_drop, hcut, List.length_take, Cut.mk.injEq]
      exact ⟨by omega, rfl⟩
    rw [htoken, ofCut] at hfound
    obtain ⟨rfl, rfl⟩ := Lexeme.token.inj hfound
    refine ⟨gap ++ c :: rest.take n, rest.drop n, ?_, ?_, ?_, ?_⟩
    · rw [List.append_assoc, List.cons_append, List.take_append_drop]
    · rw [byteCount_append, Nat.add_assoc]
    · rw [byteCount_append, ← Nat.add_assoc]
      exact hothers
    · intro post hpost
      rw [List.append_assoc, List.cons_append, hskip, ← List.cons_append,
        scanFrom_cut _ hspace hcomment (first_stable hcut' hpost), byteCount_append,
        ← Nat.add_assoc]
      rfl

/-- A word is an integer type, a keyword or a plain word. -/
theorem wordToken?_cases {text : List Char} {token : Token} (h : Cut.wordToken? text = some token) :
    (∃ width, token = .intType width) ∨ (∃ keyword, token = .keyword keyword) ∨
      ∃ word, token = .word word := by
  have hword : ∀ text, (∃ keyword, Cut.wordToken?.ofWord text = .keyword keyword) ∨
      ∃ word, Cut.wordToken?.ofWord text = .word word := by
    intro text
    unfold Cut.wordToken?.ofWord
    dsimp only
    split
    · exact .inl ⟨_, rfl⟩
    · exact .inr ⟨_, rfl⟩
  unfold Cut.wordToken? at h
  split at h
  · split at h
    · obtain ⟨width, -, heq⟩ := Option.map_eq_some_iff.mp h
      exact .inl ⟨width, heq.symm⟩
    · exact .inr (Option.some.inj h ▸ hword _)
  · exact .inr (Option.some.inj h ▸ hword _)

theorem isMark_of_first {c : Char} {rest : List Char} {mark : Mark}
    (h : (Cut.first c rest).token? = some (.mark mark)) (hmark : mark ≠ .ellipsis) :
    Mark.ofChar? c = some mark := by
  cases Cut.starts_first h with
  | mark hc => exact hc
  | ellipsis => exact absurd rfl hmark
  | word hc hword =>
    rcases wordToken?_cases hword with ⟨_, heq⟩ | ⟨_, heq⟩ | ⟨_, heq⟩
    all_goals cases heq

theorem closes_of_mark {c : Char} {mark : Mark} (h : Mark.ofChar? c = some mark) : closes c := by
  unfold Mark.ofChar? at h
  split at h
  case h_10 => exact absurd h (Option.some_ne_none mark).symm
  all_goals rfl

/-- Up to a mark, a text is cut into the same pieces whatever follows the mark. -/
theorem cutAs_mark {start : Nat} {text : List Char} {pieces : List Lexeme} {mark : Mark}
    {span : Span} {others : List Lexeme}
    (h : scanFrom start text = pieces ++ .token (.mark mark) span :: others)
    (hmark : mark ≠ .ellipsis) :
    ∃ front d more, text = front ++ d :: more ∧ closes d ∧
      span.stop = start + byteCount (front ++ [d]) ∧ scanFrom span.stop more = others ∧
      CutAs Anything start (front ++ [d]) (pieces ++ [.token (.mark mark) span]) := by
  induction pieces generalizing start text with
  | nil =>
    obtain ⟨gap, c, rest, rfl, hspace, hcomment, hskip⟩ := exists_piece h
    rw [hskip, scanFrom_first hspace hcomment, List.nil_append] at h
    obtain ⟨hpiece, hothers⟩ := List.cons.inj h
    have htoken := congrArg token? hpiece
    rw [token?_ofCut] at htoken
    have hc := isMark_of_first htoken hmark
    have hfirst := fun post => first_mark hc post
    rw [hfirst] at hpiece hothers
    obtain ⟨-, rfl⟩ := Lexeme.token.inj hpiece
    refine ⟨gap, c, rest, rfl, closes_of_mark hc, ?_, hothers, ?_⟩
    · rw [byteCount_append, ← Nat.add_assoc]
      rfl
    · intro post _
      rw [List.append_assoc, List.singleton_append, hskip, scanFrom_first hspace hcomment, hfirst,
        byteCount_append, ← Nat.add_assoc]
      rfl
  | cons piece pieces ih =>
    obtain ⟨gap, c, rest, rfl, hspace, hcomment, hskip⟩ := exists_piece h
    rw [hskip, scanFrom_first hspace hcomment, List.cons_append] at h
    obtain ⟨hpiece, hpieces⟩ := List.cons.inj h
    obtain ⟨n, hn⟩ : ∃ n, n = (Cut.first c rest).length - 1 := ⟨_, rfl⟩
    rw [← hn] at hpiece hpieces
    obtain ⟨front, d, more, hrest, hd, hstop, hothers, hcut⟩ := ih hpieces
    have hwhole : rest = rest.take n ++ (front ++ d :: more) := by
      rw [← hrest, List.take_append_drop]
    have htake : (rest.take n).length = n := by
      have hlength := congrArg List.length hrest
      rw [List.length_drop, List.length_append, List.length_cons] at hlength
      rw [List.length_take]
      omega
    -- the piece ends before the mark, so it does not depend on what follows
    have hfirst : Cut.first c (rest.take n ++ front ++ d :: more) = Cut.first c rest := by
      rw [List.append_assoc, ← hwhole]
    have hlocal : ∀ post, Cut.first c (rest.take n ++ front ++ d :: post) = Cut.first c rest := by
      intro post
      rw [← hfirst]
      apply first_local _ (closed_cons.mpr hd) (List.cons_ne_nil _ _) (closed_cons.mpr hd)
      rw [hfirst, List.length_append, htake]
      omega
    refine ⟨gap ++ c :: (rest.take n ++ front), d, more, ?_, hd, ?_, hothers, ?_⟩
    · simp only [List.append_assoc, List.cons_append]
      rw [← hwhole]
    · rw [hstop]
      simp only [byteCount_append, byteCount]
      omega
    · intro post _
      have htext : gap ++ c :: (rest.take n ++ front) ++ [d] ++ post =
          gap ++ c :: (rest.take n ++ front ++ d :: post) := by
        simp only [List.append_assoc, List.cons_append, List.nil_append]
      have hcount : start + byteCount (gap ++ c :: (rest.take n ++ front) ++ [d]) =
          start + byteCount gap + byteCount (c :: rest.take n) + byteCount (front ++ [d]) := by
        simp only [byteCount_append, byteCount]
        omega
      have hafter := hcut post trivial
      rw [List.append_assoc, List.singleton_append] at hafter
      have htake' : (rest.take n ++ (front ++ d :: post)).take n = rest.take n := by
        rw [List.take_left' htake]
      have hdrop' : (rest.take n ++ (front ++ d :: post)).drop n = front ++ d :: post := by
        rw [List.drop_left' htake]
      rw [htext, hskip, scanFrom_first hspace hcomment, hlocal, ← hn, List.append_assoc, htake',
        hdrop', hpiece, hafter, hcount]
      rfl

end Lexeme

end QuantumIR
