import QuantumIR.Proofs.Accepted.Functions
import QuantumIR.Proofs.Token.Pieces

/-!
Keyword attributes that are read can be written. Such an attribute is a part of the source text
from the start of its first token to the end of its last one, and that part is cut into the same
tokens wherever it stands.
-/

namespace QuantumIR

open Reading Text Lexeme

namespace Lexeme

variable {start : Nat} {text : List Char} {taken others : List PlacedToken}

/-- If a text can be read, all its pieces are tokens. -/
theorem eq_map_of_placeTokens {lexemes : List Lexeme} {placed : List PlacedToken}
    (h : Module.placeTokens lexemes = .ok placed) : lexemes = placed.map ofPlaced := by
  induction lexemes generalizing placed with
  | nil =>
    cases h
    rfl
  | cons lexeme rest ih =>
    cases lexeme with
    | invalid text span => cases h
    | token found span =>
      rw [Module.placeTokens] at h
      cases hrest : Module.placeTokens rest with
      | error fault =>
        rw [hrest] at h
        cases h
      | ok others =>
        rw [hrest] at h
        cases h
        rw [List.map_cons, ih hrest]
        rfl

/-- After some tokens of a text stands the text of the others. -/
theorem exists_text_of_append (h : scanFrom start text = (taken ++ others).map ofPlaced) :
    ∃ front more, text = front ++ more ∧
      scanFrom (start + byteCount front) more = others.map ofPlaced := by
  induction taken generalizing start text with
  | nil => exact ⟨[], text, rfl, h⟩
  | cons first taken ih =>
    rw [List.cons_append, List.map_cons, ofPlaced] at h
    obtain ⟨front, more, rfl, -, hmore, -⟩ := cutAs_token h
    obtain ⟨front', more', rfl, hothers⟩ := ih hmore
    refine ⟨front ++ front', more', (List.append_assoc ..).symm, ?_⟩
    rw [byteCount_append, ← Nat.add_assoc]
    exact hothers

/-- A token stands where its text starts. -/
theorem exists_text_of_cons {first : PlacedToken}
    (h : scanFrom start text = (first :: others).map ofPlaced) :
    ∃ gap c more, text = gap ++ c :: more ∧ first.span.start = start + byteCount gap ∧
      Cut.Starts c first.token ∧
      scanFrom first.span.start (c :: more) = (first :: others).map ofPlaced := by
  rw [List.map_cons] at h
  obtain ⟨gap, c, more, rfl, hspace, hcomment, hskip⟩ := exists_piece h
  have hfirst := h
  rw [hskip] at h
  rw [hskip, scanFrom_first hspace hcomment] at hfirst
  obtain ⟨hpiece, -⟩ := List.cons.inj hfirst
  have htoken := congrArg token? hpiece
  have hspan := congrArg (fun lexeme => lexeme.span.start) hpiece
  rw [token?_ofCut, token?_ofPlaced] at htoken
  rw [htoken] at hspan
  have hstart : start + byteCount gap = first.span.start := hspan
  refine ⟨gap, c, more, rfl, hstart.symm, Cut.starts_first htoken, ?_⟩
  rw [← hstart]
  exact h

variable {after : List Char → Prop} {front : List Char} {pieces : List Lexeme}

theorem CutAs.weaken (h : CutAs Anything start front pieces) : CutAs Closed start front pieces :=
  fun post _ => h post trivial

/-- A text that is cut whatever follows it is cut so wherever it stands. -/
theorem CutAs.split (h : CutAs after start front pieces) (hnil : after []) (place : Nat)
    {post : List Char} (hpost : after post) : scanFrom place (front ++ post) =
      scanFrom place front ++ scanFrom (place + byteCount front) post := by
  have halone := h [] hnil
  have hwhole := h post hpost
  rw [List.append_nil, scanFrom, List.append_nil] at halone
  rw [← halone] at hwhole
  have hzero : scanFrom 0 (front ++ post) =
      scanFrom 0 front ++ scanFrom (byteCount front) post := by
    apply List.map_injective_iff.mpr (shift_injective start)
    rw [List.map_append, ← scanFrom_add, ← scanFrom_add, ← scanFrom_add, Nat.zero_add,
      Nat.add_comm (byteCount front)]
    exact hwhole
  rw [← Nat.zero_add place, scanFrom_add, hzero, List.map_append, ← scanFrom_add, ← scanFrom_add,
    Nat.zero_add, Nat.add_comm (byteCount front)]

end Lexeme

namespace Reading

/-- A token that is taken was the next one. -/
theorem exists_of_takeIf_eq_true {token : Token} {state after : ReadState}
    (h : takeIf token state = .ok (true, after)) :
    ∃ first, state.rest = first :: after.rest ∧ first.token = token := by
  obtain ⟨found, middle, hnext, h⟩ := ok_bind h
  cases hnext
  split at h
  · next hfound =>
    obtain ⟨_, advanced, hadvance, h⟩ := ok_bind h
    cases hadvance
    cases h
    have hhead : state.rest.head?.map PlacedToken.token = some token := by simpa using hfound
    obtain ⟨first, hfirst, htoken⟩ := Option.map_eq_some_iff.mp hhead
    obtain ⟨others, hothers⟩ := List.head?_eq_some_iff.mp hfirst
    exact ⟨first, by simp [hothers], htoken⟩
  · cases h

/-- Tokens up to the closing parenthesis are taken, and that parenthesis. -/
theorem exists_of_afterParens {depth : Nat} {tokens left : List PlacedToken}
    (h : afterParens depth tokens = some left) :
    ∃ inner closing, tokens = inner ++ closing :: left ∧ closing.token = .mark .rightParen ∧
      afterParens depth (inner ++ [closing]) = some [] := by
  induction tokens generalizing depth with
  | nil => cases h
  | cons first others ih =>
    have hmore : ∀ depth', afterParens depth' others = some left →
        (∀ row, afterParens depth (first :: row) = afterParens depth' row) →
        ∃ inner closing, first :: others = inner ++ closing :: left ∧
          closing.token = .mark .rightParen ∧ afterParens depth (inner ++ [closing]) = some [] := by
      intro depth' hothers hstep
      obtain ⟨inner, closing, rfl, hclosing, hnil⟩ := ih hothers
      exact ⟨first :: inner, closing, rfl, hclosing, (hstep _).trans hnil⟩
    have hcons := fun row => afterParens_cons depth first row
    by_cases hopen : first.token = .mark .leftParen
    · simp only [if_pos hopen] at hcons
      exact hmore _ ((hcons others).symm.trans h) hcons
    · simp only [if_neg hopen] at hcons
      by_cases hclose : first.token = .mark .rightParen
      · simp only [if_pos hclose] at hcons
        by_cases hlast : depth ≤ 1
        · simp only [if_pos hlast] at hcons
          cases (hcons others).symm.trans h
          exact ⟨[], first, rfl, hclose, hcons []⟩
        · simp only [if_neg hlast] at hcons
          exact hmore _ ((hcons others).symm.trans h) hcons
      · simp only [if_neg hclose] at hcons
        exact hmore _ ((hcons others).symm.trans h) hcons

end Reading

namespace Attribute

/-- What is taken of a keyword attribute after its word. -/
inductive TakesKeyword : List PlacedToken → Prop where
  | word : TakesKeyword []
  | arguments {opening closing : PlacedToken} {inner : List PlacedToken}
      (hopening : opening.token = .mark .leftParen) (hclosing : closing.token = .mark .rightParen)
      (h : afterParens 1 (inner ++ [closing]) = some []) :
      TakesKeyword (opening :: (inner ++ [closing]))
  | value {equals : PlacedToken} (hequals : equals.token = .mark .equals) (value : PlacedToken) :
      TakesKeyword [equals, value]

/-- A keyword attribute is a word, by itself or with arguments or a value. Only at the end of a text
may the value be missing. -/
theorem takesKeyword_of_skipKeyword {state after : ReadState} {first : PlacedToken}
    {others : List PlacedToken} (hstate : state.rest = first :: others)
    (h : Module.skipKeyword state = .ok ((), after)) (hne : after.rest ≠ []) :
    ∃ taken, others = taken ++ after.rest ∧ TakesKeyword taken := by
  obtain ⟨_, advanced, hadvance, h⟩ := ok_bind h
  cases hadvance
  have hadvanced : state.rest.tail = others := by rw [hstate, List.tail_cons]
  obtain ⟨found, middle, hparen, h⟩ := ok_bind h
  cases found with
  | true =>
    obtain ⟨opening, hrest, hopening⟩ := exists_of_takeIf_eq_true hparen
    have hskip : skipToParen middle = .ok ((), after) := h
    rw [skipToParen] at hskip
    split at hskip
    · next left hleft =>
      cases hskip
      obtain ⟨inner, closing, hmiddle, hclosing, hnil⟩ := exists_of_afterParens hleft
      have htail : state.rest.tail = opening :: middle.rest := hrest
      refine ⟨opening :: (inner ++ [closing]), ?_, .arguments hopening hclosing hnil⟩
      rw [← hadvanced, htail, hmiddle]
      simp
    · cases hskip
  | false =>
    obtain ⟨rfl, -⟩ := of_takeIf_eq_false hparen
    have hvalue : (takeIf (.mark .equals) >>= fun taken => if taken then advance else pure ())
        { state with rest := state.rest.tail } = .ok ((), after) := h
    obtain ⟨found, middle, hequals, hlast⟩ := ok_bind hvalue
    cases found with
    | true =>
      obtain ⟨equals, hrest, hequals⟩ := exists_of_takeIf_eq_true hequals
      cases hlast
      obtain ⟨value, left, hmiddle⟩ : ∃ value left, middle.rest = value :: left := by
        cases hmiddle : middle.rest with
        | nil => exact absurd (by simp [hmiddle]) hne
        | cons value left => exact ⟨value, left, rfl⟩
      have htail : state.rest.tail = equals :: middle.rest := hrest
      refine ⟨[equals, value], ?_, .value hequals value⟩
      rw [← hadvanced, htail, hmiddle]
      rfl
    | false =>
      obtain ⟨rfl, -⟩ := of_takeIf_eq_false hequals
      cases hlast
      exact ⟨[], hadvanced.symm, .word⟩

theorem TakesKeyword.form {taken : List PlacedToken} (h : TakesKeyword taken) (word : String) :
    KeywordForm (.word word :: taken.map PlacedToken.token) := by
  cases h with
  | word => exact .word word
  | arguments hopening hclosing h =>
    rw [List.map_cons, hopening]
    exact .arguments word ⟨_, rfl, h⟩
  | value hequals value =>
    rw [List.map_cons, hequals]
    exact .value word value.token

/-- A keyword attribute is cut into its tokens, whatever follows it at a distance. -/
theorem TakesKeyword.exists_front {start : Nat} {text : List Char} {first : PlacedToken}
    {taken others : List PlacedToken} (h : TakesKeyword taken)
    (hscan : scanFrom start text = (first :: (taken ++ others)).map ofPlaced) :
    ∃ front more, text = front ++ more ∧
      CutAs Closed start front ((first :: taken).map ofPlaced) ∧
      (first :: taken).getLast?.map (fun token => token.span.stop) =
        some (start + byteCount front) := by
  cases h with
  | word =>
    rw [List.nil_append, List.map_cons, ofPlaced] at hscan
    obtain ⟨front, more, rfl, hstop, -, hcut⟩ := cutAs_token hscan
    exact ⟨front, more, rfl, hcut, congrArg some hstop⟩
  | @arguments opening closing inner hopening hclosing h =>
    have hpieces : scanFrom start text = (first :: opening :: inner).map ofPlaced ++
        .token (.mark .rightParen) closing.span :: others.map ofPlaced := by
      rw [hscan, ← hclosing]
      simp [ofPlaced]
    obtain ⟨front, d, more, rfl, -, hstop, -, hcut⟩ := cutAs_mark hpieces (by decide)
    refine ⟨front ++ [d], more, by simp, ?_, ?_⟩
    · have hmap : (first :: opening :: (inner ++ [closing])).map ofPlaced =
          (first :: opening :: inner).map ofPlaced ++
            [.token (.mark .rightParen) closing.span] := by
        rw [← hclosing]
        simp [ofPlaced]
      rw [hmap]
      exact hcut.weaken
    · rw [← hstop, ← List.cons_append, ← List.cons_append, List.getLast?_concat, Option.map_some]
  | @value equals hequals value =>
    have hpieces : scanFrom start text = [ofPlaced first] ++
        .token (.mark .equals) equals.span :: ofPlaced value :: others.map ofPlaced := by
      rw [hscan, ← hequals]
      rfl
    obtain ⟨front, d, more, rfl, -, hstop, hmore, hcut⟩ := cutAs_mark hpieces (by decide)
    rw [hstop] at hmore
    obtain ⟨front', more', rfl, hstop', -, hcut'⟩ := cutAs_token hmore
    refine ⟨front ++ [d] ++ front', more', by simp, ?_, ?_⟩
    · have hboth := hcut.append hcut'
      rw [← hequals] at hboth
      exact hboth
    · rw [byteCount_append, ← Nat.add_assoc, ← hstop']
      rfl

theorem not_blank_of_isLetter {c : Char} (h : isLetter c) : isBlank c = false := by
  have hranges : ∀ range ∈ blankRanges, range.2 < 65 ∨ 122 < range.1 := by decide
  have hcode : 65 ≤ c.toNat ∧ c.toNat ≤ 122 := by
    simp only [isLetter, Bool.or_eq_true, Bool.and_eq_true, decide_eq_true_eq, Char.le_def,
      UInt32.le_iff_toNat_le, Char.reduceVal, UInt32.reduceToNat] at h
    rw [Char.toNat]
    omega
  rw [isBlank, List.any_eq_false]
  intro range hmem
  have hrange := hranges range hmem
  simp only [Bool.and_eq_true, decide_eq_true_eq]
  omega

/-- A word starts with neither white space nor an exclamation mark. -/
theorem not_blank_of_starts_word {c : Char} {word : String} (h : Cut.Starts c (.word word)) :
    isBlank c = false ∧ c ≠ '!' := by
  cases h with
  | word hc _ =>
    rcases hc with hc | rfl
    · refine ⟨not_blank_of_isLetter hc, ?_⟩
      rintro rfl
      exact absurd hc (by decide)
    · exact ⟨rfl, by decide⟩

theorem spans_iff {placed : List PlacedToken} {start stop : Nat} : Spans placed start stop ↔
    (placed.map ofPlaced).head?.map (fun lexeme => lexeme.span.start) = some start ∧
      (placed.map ofPlaced).getLast?.map (fun lexeme => lexeme.span.stop) = some stop := by
  rw [List.head?_map, List.getLast?_map, Option.map_map, Option.map_map]
  rfl

/-- Pieces span the same part of a text wherever it stands. -/
theorem Spans.shift {pieces : List Lexeme} {placed placed' : List PlacedToken}
    {start place length : Nat} (h : Spans placed start (start + length))
    (hplaced : pieces.map (Lexeme.shift start) = placed.map ofPlaced)
    (hplaced' : pieces.map (Lexeme.shift place) = placed'.map ofPlaced) :
    Spans placed' place (place + length) := by
  rw [spans_iff, ← hplaced, List.head?_map, List.getLast?_map, Option.map_map, Option.map_map] at h
  obtain ⟨first, hfirst, hstart⟩ := Option.map_eq_some_iff.mp h.1
  obtain ⟨last, hlast, hstop⟩ := Option.map_eq_some_iff.mp h.2
  rw [Function.comp_apply, span_shift] at hstart hstop
  rw [spans_iff, ← hplaced', List.head?_map, List.getLast?_map, hfirst, hlast, Option.map_some,
    Option.map_some, Option.map_some, Option.map_some, span_shift, span_shift, Option.some.injEq,
    Option.some.injEq]
  dsimp only at hstart hstop ⊢
  omega

/-- What is taken as a keyword attribute spells it. -/
theorem TakesKeyword.spells {before front more : List Char} {first : PlacedToken}
    {taken : List PlacedToken} {word : String} (h : TakesKeyword taken)
    (hword : first.token = .word word) {c : Char} {rest : List Char} (hfront : front = c :: rest)
    (hstarts : Cut.Starts c first.token) (hcalm : Source.Calm (before ++ (front ++ more)))
    (hcut : CutAs Closed first.span.start front ((first :: taken).map ofPlaced))
    (hstop : (first :: taken).getLast?.map (fun token => token.span.stop) =
      some (first.span.start + byteCount front)) :
    SpellsKeyword front ((first :: taken).map PlacedToken.token) := by
  have halone : scanFrom first.span.start front = (first :: taken).map ofPlaced := by
    have := hcut [] closed_nil
    rwa [List.append_nil, scanFrom, List.append_nil] at this
  obtain ⟨pieces, hpieces⟩ : ∃ pieces, pieces = scanFrom 0 front := ⟨_, rfl⟩
  have hplace : ∀ place, scanFrom place front = pieces.map (shift place) := by
    intro place
    rw [hpieces, ← scanFrom_add, Nat.zero_add]
  have hshifted : pieces.map (shift first.span.start) = (first :: taken).map ofPlaced :=
    (hplace _).symm.trans halone
  refine ⟨⟨closed_nil, fun place post hpost => hcut.split closed_nil place hpost, ?_, ?_⟩, ?_, ?_⟩
  · intro place
    have htokens := congrArg (List.map token?) hshifted
    simp only [List.map_map, Function.comp_def, token?_shift, token?_ofPlaced] at htokens
    simp only [hplace, List.map_map, Function.comp_def, token?_shift]
    exact htokens
  · subst hfront
    rw [hword] at hstarts
    obtain ⟨hblank, hmark⟩ := not_blank_of_starts_word hstarts
    have hinside := (Source.calmFrom_of_append (Source.calmFrom_of_append hcalm).2).1
    have hnewline : c ≠ '\n' := by
      rintro rfl
      exact absurd hblank (by decide)
    rw [Source.calmFrom, if_neg hnewline, if_neg Bool.false_ne_true] at hinside
    exact Source.calm_cons hblank hmark hinside
  · rw [List.map_cons, hword]
    exact h.form word
  · intro place placed hplaced
    have hspans : Spans (first :: taken) first.span.start
        (first.span.start + byteCount front) := ⟨rfl, hstop⟩
    exact hspans.shift hshifted ((hplace place).symm.trans hplaced)

variable {text : List Char} {row : List PlacedToken}

/-- A keyword attribute that is read before the end of a text can be written. -/
theorem writable_of_readKeyword (hcalm : Source.Calm text) (hscan : scan text = row.map ofPlaced)
    {state after : ReadState} (hrow : state.rest <:+ row) {word : String} {attr : Attribute}
    (hword : state.rest.head?.map PlacedToken.token = some (.word word))
    (h : Module.readKeyword text state = .ok (attr, after)) (hne : after.rest ≠ []) :
    attr.Writable := by
  obtain ⟨first, hfirst, hword⟩ := Option.map_eq_some_iff.mp hword
  obtain ⟨others, hstate⟩ := List.head?_eq_some_iff.mp hfirst
  obtain ⟨_, _, hrest, h⟩ := ok_bind h
  cases hrest
  obtain ⟨_, skipped, hskip, h⟩ := ok_bind h
  obtain ⟨_, _, hrest, h⟩ := ok_bind h
  cases hrest
  cases h
  obtain ⟨taken, rfl, htaken⟩ := takesKeyword_of_skipKeyword hstate hskip hne
  obtain ⟨placed, rfl⟩ := hrow
  obtain ⟨front₀, more₀, rfl, hmore⟩ := exists_text_of_append hscan
  rw [hstate] at hmore
  obtain ⟨gap, c, more, rfl, hstart, hstarts, hfirst⟩ := exists_text_of_cons hmore
  obtain ⟨front, more', htext, hcut, hstop⟩ := htaken.exists_front hfirst
  obtain ⟨rest, rfl⟩ : ∃ rest, front = c :: rest := by
    cases front with
    | nil => exact absurd (hcut [] closed_nil) (by simp [scanFrom])
    | cons d rest =>
      rw [List.cons_append, List.cons.injEq] at htext
      exact ⟨rest, by rw [htext.1]⟩
  rw [htext, ← List.append_assoc] at hcalm
  have hspells := htaken.spells hword rfl hstarts hcalm hcut hstop
  have hplace : first.span.start = byteCount (front₀ ++ gap) := by
    rw [hstart, byteCount_append, Nat.zero_add]
  have hslice : Source.slice (front₀ ++ (gap ++ c :: more))
      ⟨(state.rest.head?.map fun token => token.span.start).getD 0,
        stopOfTaken state.rest after.rest⟩ = String.ofList (c :: rest) := by
    rw [hstate, ← List.cons_append, stopOfTaken_append, hstop, Option.getD_some, htext,
      ← List.append_assoc, ← List.append_assoc, List.cons_append, List.head?_cons, Option.map_some,
      Option.getD_some, hplace]
    exact Source.slice_append _ _ _
  rw [hslice]
  exact ⟨_, by rw [String.toList_ofList]; exact hspells⟩

/-- Either the group ends, or there is one attribute more. -/
theorem gives_readAttribute (attributes : List Attribute) :
    Gives row (Module.readAttribute text attributes) fun step =>
      step = .inr attributes ∨ ∃ attr, step = .inl (attributes ++ [attr]) := by
  have hskip : Gives row Module.skipKeyword fun _ => True := by
    apply gives_advance.skip
    intro _
    apply (gives_takeIf _).skip
    intro found
    apply Gives.ite
    · intro _
      exact gives_skipToParen
    · intro _
      apply (gives_takeIf _).skip
      intro found
      apply Gives.ite
      · intro _
        exact gives_advance
      · intro _
        exact Gives.pure trivial
  have hkeyword : Gives row (Module.readKeyword text) fun _ => True := by
    apply (gives_rest.weaken fun _ _ => trivial).skip
    intro before
    apply hskip.skip
    intro _
    apply (gives_rest.weaken fun _ _ => trivial).skip
    intro after
    exact Gives.pure trivial
  apply gives_peek?.skip
  intro token?
  split
  · exact gives_advance.skip fun _ => Gives.pure (Or.inl rfl)
  · exact gives_readQuoted.bind fun attr _ => Gives.pure (Or.inr ⟨attr, rfl⟩)
  · exact hkeyword.bind fun attr _ => Gives.pure (Or.inr ⟨attr, rfl⟩)
  · exact gives_unexpected .attributeEntry

/-- An attribute that is read before the end of a text can be written. -/
theorem writable_of_readAttribute (hcalm : Source.Calm text) (hscan : scan text = row.map ofPlaced)
    {state after : ReadState} (hrow : state.rest <:+ row) {attributes : List Attribute}
    {attr : Attribute} (h : Module.readAttribute text attributes state =
      .ok (.inl (attributes ++ [attr]), after)) (hne : after.rest ≠ []) : attr.Writable := by
  have hfails : ∀ step : List Attribute ⊕ List Attribute,
      unexpected .attributeEntry state ≠ .ok (step, after) :=
    fun _ => ne_ok_of_gives fun _ => gives_unexpected _
  have hone : ∀ {found : Attribute} {middle : ReadState},
      (return .inl (attributes ++ [found]) : Reading (List Attribute ⊕ List Attribute)) middle =
        .ok (.inl (attributes ++ [attr]), after) → found = attr ∧ middle = after := by
    intro found middle hstep
    have heq := Except.ok.inj hstep
    simpa using heq
  obtain ⟨_, _, hpeek, h⟩ := ok_bind h
  cases hpeek
  cases hhead : state.rest.head?.map PlacedToken.token with
  | none =>
    rw [hhead] at h
    exact absurd h (hfails _)
  | some token =>
    rw [hhead] at h
    cases token with
    | mark mark =>
      cases mark with
      | rightBrace =>
        obtain ⟨_, _, -, h⟩ := ok_bind h
        cases h
      | _ => exact absurd h (hfails _)
    | string text =>
      obtain ⟨found, middle, hread, h⟩ := ok_bind h
      obtain ⟨rfl, rfl⟩ := hone h
      exact (gives_readQuoted _ _ _ hrow hread).1
    | word word =>
      obtain ⟨found, middle, hread, h⟩ := ok_bind h
      obtain ⟨rfl, rfl⟩ := hone h
      exact writable_of_readKeyword hcalm hscan hrow hhead hread hne
    | _ => exact absurd h (hfails _)

/-- Nothing is read of a group at the end of a text. -/
theorem not_ok_of_readAttributes {attributes all : List Attribute} {state after : ReadState}
    (hnil : state.rest = [])
    (h : loop .attributeEntry (Module.readAttribute text) attributes state = .ok (all, after)) :
    False := by
  rw [loop] at h
  have hstep : Module.readAttribute text attributes state =
      .error ⟨none, .unexpectedEnd .attributeEntry⟩ := by
    obtain ⟨rest, next⟩ := state
    cases hnil
    rfl
  rw [hstep] at h
  cases h

/-- Attributes of a group that is read can be written. -/
theorem gives_readAttributes (hcalm : Source.Calm text) (hscan : scan text = row.map ofPlaced) :
    Gives row (Module.readAttributes text) fun attributes => ∀ attr ∈ attributes, attr.Writable := by
  suffices hloop : ∀ before : List Attribute, (∀ attr ∈ before, attr.Writable) →
      Gives row (loop .attributeEntry (Module.readAttribute text) before)
        fun attributes => ∀ attr ∈ attributes, attr.Writable from
    hloop [] fun _ h => absurd h List.not_mem_nil
  intro before hbefore state all after hrow hread
  induction hn : state.rest.length using Nat.strong_induction_on generalizing before state with
  | _ n ih =>
    have hwhole := hread
    rw [loop] at hread
    split at hread
    · cases hread
    · next hstep =>
      cases hread
      obtain ⟨hcase, hafter⟩ := gives_readAttribute before _ _ _ hrow hstep
      rcases hcase with heq | ⟨_, heq⟩
      · cases heq
        exact ⟨hbefore, hafter⟩
      · cases heq
    · next attributes middle hstep =>
      obtain ⟨hcase, hmiddle⟩ := gives_readAttribute before _ _ _ hrow hstep
      rcases hcase with heq | ⟨attr, heq⟩
      · cases heq
      · cases heq
        split at hread
        · next hlt =>
          -- what is read at the end of the text is not used
          have hne : middle.rest ≠ [] := fun hnil => not_ok_of_readAttributes hnil hread
          have hattr := writable_of_readAttribute hcalm hscan hrow hstep hne
          have hall : ∀ a ∈ before ++ [attr], a.Writable :=
            List.forall_mem_append.mpr ⟨hbefore, List.forall_mem_singleton.mpr hattr⟩
          exact ih _ (hn ▸ hlt) _ hall middle hmiddle hread rfl
        · have hfails : Gives row (unexpected .attributeEntry)
              fun attributes : List Attribute => ∀ attr ∈ attributes, attr.Writable :=
            gives_unexpected _
          exact hfails middle all after hmiddle hread

end Attribute

end QuantumIR
