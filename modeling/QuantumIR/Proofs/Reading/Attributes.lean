import QuantumIR.Proofs.Canonical.GroupTokens
import QuantumIR.Proofs.Reading.Taking

/-!
Attribute groups are read back. A keyword attribute is read back as the text between the places of
its first and its last token, so it comes back if its text starts and ends with a token.
-/

namespace QuantumIR

open Reading Lexeme Text

namespace Text

theorem dropBytes_append (before after : List Char) :
    dropBytes (byteCount before) (before ++ after) = after := by
  induction before with
  | nil =>
    cases after with
    | nil => rfl
    | cons c rest =>
      have := c.utf8Size_pos
      rw [List.nil_append, byteCount, dropBytes, if_neg (by omega)]
  | cons c rest ih =>
    rw [List.cons_append, byteCount, dropBytes, if_pos (by omega), Nat.add_sub_cancel_left, ih]

theorem takeBytes_append (text after : List Char) :
    takeBytes (byteCount text) (text ++ after) = text := by
  induction text with
  | nil =>
    cases after with
    | nil => rfl
    | cons c rest =>
      have := c.utf8Size_pos
      rw [List.nil_append, byteCount, takeBytes, if_neg (by omega)]
  | cons c rest ih =>
    rw [List.cons_append, byteCount, takeBytes, if_pos (by omega), Nat.add_sub_cancel_left, ih]

end Text

/-- The characters between two places are the text that stands there. -/
theorem Source.slice_append (before text after : List Char) :
    slice (before ++ text ++ after) ⟨byteCount before, byteCount before + byteCount text⟩ =
      String.ofList text := by
  rw [slice, List.append_assoc, dropBytes_append, Nat.add_sub_cancel_left, takeBytes_append]

namespace Reading

theorem afterParens_cons (depth : Nat) (first : PlacedToken) (others : List PlacedToken) :
    afterParens depth (first :: others) =
      if first.token = .mark .leftParen then afterParens (depth + 1) others
      else if first.token = .mark .rightParen then
        if depth ≤ 1 then some others else afterParens (depth - 1) others
      else afterParens depth others := by
  match depth with
  | 0 => rfl
  | 1 => rfl
  | depth + 2 => rfl

/-- What stands after the closing parenthesis does not matter. -/
theorem afterParens_append {depth : Nat} {placed left : List PlacedToken}
    (h : afterParens depth placed = some left) (rest : List PlacedToken) :
    afterParens depth (placed ++ rest) = some (left ++ rest) := by
  induction placed generalizing depth with
  | nil => exact absurd h (Option.some_ne_none left).symm
  | cons first others ih =>
    rw [afterParens_cons] at h
    rw [List.cons_append, afterParens_cons]
    by_cases hopen : first.token = .mark .leftParen
    · rw [if_pos hopen] at h ⊢
      exact ih h
    · rw [if_neg hopen] at h ⊢
      by_cases hclose : first.token = .mark .rightParen
      · rw [if_pos hclose] at h ⊢
        by_cases hlast : depth ≤ 1
        · rw [if_pos hlast] at h ⊢
          rw [← Option.some.inj h]
        · rw [if_neg hlast] at h ⊢
          exact ih h
      · rw [if_neg hclose] at h ⊢
        exact ih h

/-- Parentheses are matched by the tokens alone. -/
theorem afterParens_congr {depth : Nat} {placed placed' left : List PlacedToken}
    (h : afterParens depth placed = some left)
    (htokens : placed'.map PlacedToken.token = placed.map PlacedToken.token) :
    ∃ left', afterParens depth placed' = some left' ∧
      left'.map PlacedToken.token = left.map PlacedToken.token := by
  induction placed generalizing depth placed' with
  | nil => exact absurd h (Option.some_ne_none left).symm
  | cons first others ih =>
    obtain ⟨first', others', rfl, hfirst, hothers⟩ := List.map_eq_cons_iff.mp htokens
    rw [afterParens_cons] at h
    rw [afterParens_cons]
    rw [hfirst]
    by_cases hopen : first.token = .mark .leftParen
    · rw [if_pos hopen] at h ⊢
      exact ih h hothers
    · rw [if_neg hopen] at h ⊢
      by_cases hclose : first.token = .mark .rightParen
      · rw [if_pos hclose] at h ⊢
        by_cases hlast : depth ≤ 1
        · rw [if_pos hlast] at h ⊢
          refine ⟨others', rfl, ?_⟩
          rw [← Option.some.inj h, hothers]
        · rw [if_neg hlast] at h ⊢
          exact ih h hothers
      · rw [if_neg hclose] at h ⊢
        exact ih h hothers

/-- Tokens that end with the parenthesis that closes the one before them. -/
def ClosesParen (tokens : List Token) : Prop :=
  ∃ placed : List PlacedToken, placed.map PlacedToken.token = tokens ∧
    afterParens 1 placed = some []

theorem takes_skipToParen {tokens : List Token} (h : ClosesParen tokens) :
    Takes skipToParen tokens (fun _ => True) Free := by
  intro placed rest n hplaced _
  obtain ⟨model, hmodel, hcloses⟩ := h
  obtain ⟨left, hleft, hnil⟩ := afterParens_congr hcloses (hplaced.trans hmodel.symm)
  rw [List.map_nil, List.map_eq_nil_iff] at hnil
  refine ⟨(), n, trivial, ?_⟩
  simp only [skipToParen, afterParens_append hleft, hnil, List.nil_append]

end Reading

namespace Attribute

/-- The tokens of a keyword attribute: a word, with arguments or a value or by itself. -/
inductive KeywordForm : List Token → Prop where
  | word (word : String) : KeywordForm [.word word]
  | arguments (word : String) {tokens : List Token} (h : ClosesParen tokens) :
      KeywordForm (.word word :: .mark .leftParen :: tokens)
  | value (word : String) (token : Token) : KeywordForm [.word word, .mark .equals, token]

/-- The first piece of a row starts at a place and the last one stops at another. -/
def Spans (placed : List PlacedToken) (start stop : Nat) : Prop :=
  placed.head?.map (fun token => token.span.start) = some start ∧
    placed.getLast?.map (fun token => token.span.stop) = some stop

/-- A text that is read back as a keyword attribute. -/
structure SpellsKeyword (text : List Char) (tokens : List Token) : Prop where
  spells : Spells Closed text (tokens.map some)
  form : KeywordForm tokens
  spans : ∀ start placed, scanFrom start text = placed.map ofPlaced →
    Spans placed start (start + byteCount text)

/-- Whether the text of an attribute spells it. -/
def Writable : Attribute → Prop
  | keyword word => ∃ tokens, SpellsKeyword word.toList tokens
  | _ => True

/-- What may follow a keyword attribute: neither arguments nor a value. -/
def EndsKeyword (next : Option Token) : Prop :=
  next ≠ some (.mark .leftParen) ∧ next ≠ some (.mark .equals)

theorem takes_skipKeyword {tokens : List Token} (h : KeywordForm tokens) :
    Takes Module.skipKeyword tokens (fun _ => True) EndsKeyword := by
  cases h with
  | word word =>
    refine Takes.advance (Takes.takeIf_ne (Takes.otherwise Bool.false_ne_true ?_)
      (fun _ hnext => hnext.1))
    exact Takes.takeIf_ne (Takes.otherwise Bool.false_ne_true (Takes.pure trivial))
      (fun _ hnext => hnext.2)
  | arguments word h =>
    refine Takes.advance (Takes.takeIf (Takes.provided rfl ?_))
    exact (takes_skipToParen h).before fun _ _ => trivial
  | value word token =>
    refine Takes.advance (Takes.takeIf_ne (Takes.otherwise Bool.false_ne_true ?_)
      (fun _ _ => by simp [lead]))
    refine Takes.takeIf (Takes.provided rfl ?_)
    have hadvance : Takes (Reading.advance >>= pure) [token] (fun _ => True) EndsKeyword :=
      Takes.advance (Takes.pure trivial)
    rwa [bind_pure] at hadvance

theorem KeywordForm.exists_cons {tokens : List Token} (h : KeywordForm tokens) :
    ∃ word others, tokens = .word word :: others := by
  cases h with
  | word word => exact ⟨word, _, rfl⟩
  | arguments word _ => exact ⟨word, _, rfl⟩
  | value word _ => exact ⟨word, _, rfl⟩

theorem SpellsKeyword.tokens_eq {word : String} {tokens : List Token}
    (h : SpellsKeyword word.toList tokens) : (keyword word).tokens = tokens := by
  have hscan := congrArg (List.filterMap id) (h.spells.tokens 0)
  rw [List.filterMap_map, List.filterMap_map, Function.id_comp, Function.id_comp,
    List.filterMap_some] at hscan
  exact hscan

/-- The text of an attribute that spells it is cut into its tokens. -/
theorem Writable.spells {attr : Attribute} (h : attr.Writable) :
    Spells Closed attr.text.toList (attr.tokens.map some) := by
  cases attr with
  | flag key => exact Spells.string key
  | keyValue key value =>
    refine ((Spells.string key).markThen '=' rfl rfl (Spells.string value)).cast ?_ rfl
    simp only [text, String.toList_append, String.reduceToList, List.append_assoc,
      List.cons_append, List.nil_append]
  | keyword word =>
    obtain ⟨tokens, htokens⟩ := h
    rw [htokens.tokens_eq]
    exact htokens.spells

theorem placed_tokens {after : List Char → Prop} {text : List Char} {tokens : List Token}
    (h : Spells after text (tokens.map some)) {start : Nat} {placed : List PlacedToken}
    (hplaced : scanFrom start text = placed.map ofPlaced) :
    placed.map PlacedToken.token = tokens := by
  have htokens := h.tokens start
  rw [hplaced, List.map_map] at htokens
  have hsome : Function.Injective (List.map (some : Token → Option Token)) :=
    List.map_injective_iff.mpr (Option.some_injective _)
  apply hsome
  rw [List.map_map]
  exact htokens

theorem stopOfTaken_append (placed rest : List PlacedToken) :
    stopOfTaken (placed ++ rest) rest =
      (placed.getLast?.map fun token => token.span.stop).getD 0 := by
  rw [stopOfTaken, List.length_append, Nat.add_sub_cancel, List.take_left]

/-- A keyword attribute is read back where it is written. -/
theorem readKeyword_placed {source : List Char} {word : String} {placed rest : List PlacedToken}
    (h : (keyword word).Writable) (hplaced : PlacedAt source word.toList placed)
    (hnext : EndsKeyword (rest.head?.map PlacedToken.token)) (n : Nat) :
    ∃ n', Module.readKeyword source ⟨placed ++ rest, n⟩ = .ok (keyword word, ⟨rest, n'⟩) := by
  obtain ⟨tokens, hspells, hform, hspans⟩ := h
  obtain ⟨before, after, hsource, hscan⟩ := hplaced
  obtain ⟨hstart, hstop⟩ := hspans _ _ hscan
  obtain ⟨_, n', -, hskip⟩ :=
    takes_skipKeyword hform placed rest n (placed_tokens hspells hscan) hnext
  have hfirst : (placed ++ rest).head?.map (fun token => token.span.start) =
      some (byteCount before) := by
    cases placed with
    | nil => exact absurd hstart (Option.some_ne_none _).symm
    | cons first others => exact hstart
  refine ⟨n', ?_⟩
  change Except.bind (Module.skipKeyword ⟨placed ++ rest, n⟩) _ = _
  rw [hskip]
  change Except.ok (keyword (Source.slice source
    ⟨((placed ++ rest).head?.map fun token => token.span.start).getD 0,
      stopOfTaken (placed ++ rest) rest⟩), _) = _
  rw [hfirst, stopOfTaken_append, hstop, hsource, Option.getD_some, Option.getD_some,
    Source.slice_append, String.ofList_toList]

/-- An attribute starts with a string or with a word. -/
theorem Writable.exists_cons {attr : Attribute} (h : attr.Writable) :
    ∃ first others, attr.tokens = first :: others ∧ EndsKeyword (some first) := by
  cases attr with
  | flag key => exact ⟨_, _, rfl, by simp [EndsKeyword]⟩
  | keyValue key value => exact ⟨_, _, rfl, by simp [EndsKeyword]⟩
  | keyword word =>
    obtain ⟨tokens, htokens⟩ := h
    obtain ⟨first, others, hcons⟩ := htokens.form.exists_cons
    exact ⟨_, _, htokens.tokens_eq.trans hcons, by simp [EndsKeyword]⟩

theorem takes_readQuoted_flag (key : String) :
    Takes readQuoted [.string key] (· = flag key) EndsKeyword := by
  refine (takes_stringLiteral key).bindOne ?_ (fun _ _ => trivial)
  rintro _ rfl
  refine Takes.takeIf_ne (Takes.otherwise Bool.false_ne_true (Takes.pure rfl)) ?_
  exact fun _ hnext => hnext.2

theorem takes_readQuoted_keyValue (key value : String) :
    Takes readQuoted [.string key, .mark .equals, .string value] (· = keyValue key value)
      EndsKeyword := by
  refine (takes_stringLiteral key).bindOne ?_ (fun _ _ => trivial)
  rintro _ rfl
  refine Takes.takeIf (Takes.provided rfl ?_)
  refine (takes_stringLiteral value).bindOne ?_ (fun _ _ => trivial)
  rintro _ rfl
  exact Takes.pure rfl

/-- An attribute of a group is read back where it is written. -/
theorem readAttribute_placed {source : List Char} {attr : Attribute}
    {placed rest : List PlacedToken} (h : attr.Writable)
    (hplaced : PlacedAt source attr.text.toList placed)
    (hnext : EndsKeyword (rest.head?.map PlacedToken.token)) (before : List Attribute) (n : Nat) :
    ∃ n', Module.readAttribute source before ⟨placed ++ rest, n⟩ =
      .ok (.inl (before ++ [attr]), ⟨rest, n'⟩) := by
  have htokens : placed.map PlacedToken.token = attr.tokens := by
    obtain ⟨start, after, -, hscan⟩ := hplaced
    exact placed_tokens h.spells hscan
  -- quoted attributes are read from their tokens, keywords from the text
  have hquoted : ∀ {text : String} {others : List Token},
      attr.tokens = .string text :: others →
      Takes readQuoted attr.tokens (· = attr) EndsKeyword →
      ∃ n', Module.readAttribute source before ⟨placed ++ rest, n⟩ =
        .ok (.inl (before ++ [attr]), ⟨rest, n'⟩) := by
    intro text others hstring hread
    have hstep : Takes (Module.readAttribute source before) attr.tokens
        (· = .inl (before ++ [attr])) EndsKeyword := by
      rw [hstring] at hread ⊢
      refine Takes.peek?_cons ?_
      refine hread.last ?_ (fun _ hnext => hnext)
      rintro _ rfl
      exact Takes.pure rfl
    obtain ⟨_, n', rfl, hstep⟩ := hstep placed rest n htokens hnext
    exact ⟨n', hstep⟩
  cases attr with
  | flag key => exact hquoted rfl (takes_readQuoted_flag key)
  | keyValue key value => exact hquoted rfl (takes_readQuoted_keyValue key value)
  | keyword word =>
    obtain ⟨n', hread⟩ := readKeyword_placed h hplaced hnext n
    obtain ⟨tokens, hspells⟩ := h
    obtain ⟨first, others, hcons⟩ := hspells.form.exists_cons
    rw [hspells.tokens_eq, hcons] at htokens
    obtain ⟨⟨token, span⟩, placed, rfl, rfl, -⟩ := List.map_eq_cons_iff.mp htokens
    refine ⟨n', ?_⟩
    change Except.bind (Module.readKeyword source _) _ = _
    rw [hread]
    rfl

theorem PlacedAll.ends_head {source : List Char} {attributes : List Attribute}
    {placed : List PlacedToken} (hall : PlacedAll source attributes placed)
    (h : ∀ attr ∈ attributes, attr.Writable) {closing : PlacedToken}
    (hclosing : closing.token = .mark .rightBrace) (rest : List PlacedToken) :
    EndsKeyword ((placed ++ closing :: rest).head?.map PlacedToken.token) := by
  cases hall with
  | nil =>
    rw [List.nil_append, List.head?_cons, Option.map_some, hclosing]
    simp [EndsKeyword]
  | @cons attr attributes first others hplaced _ =>
    obtain ⟨token, tokens, hcons, hends⟩ := (h attr List.mem_cons_self).exists_cons
    obtain ⟨start, after, -, hscan⟩ := hplaced
    have htokens := placed_tokens (h attr List.mem_cons_self).spells hscan
    rw [List.append_assoc, head?_append_placed (htokens.trans hcons), lead_cons]
    exact hends

/-- The attributes of a group are read back up to its closing brace. -/
theorem readAttributes_placed {source : List Char} {attributes : List Attribute}
    {placed : List PlacedToken} (hall : PlacedAll source attributes placed)
    (h : ∀ attr ∈ attributes, attr.Writable) {closing : PlacedToken}
    (hclosing : closing.token = .mark .rightBrace) (before : List Attribute)
    (rest : List PlacedToken) (n : Nat) :
    ∃ n', loop .attributeEntry (Module.readAttribute source) before
      ⟨placed ++ closing :: rest, n⟩ = .ok (before ++ attributes, ⟨rest, n'⟩) := by
  induction hall generalizing before n with
  | nil =>
    have hstep : Takes (Module.readAttribute source before) [.mark .rightBrace]
        (· = .inr before) Free :=
      Takes.peek?_cons (Takes.advance (Takes.pure rfl))
    obtain ⟨_, n', rfl, hread⟩ := hstep [closing] rest n (by rw [List.map_singleton, hclosing])
      trivial
    refine ⟨n', ?_⟩
    rw [List.nil_append, List.append_nil, loop, ← List.singleton_append, hread]
  | @cons attr attributes first others hplaced hothers ih =>
    have hattr := h attr List.mem_cons_self
    have hrest := fun a ha => h a (List.mem_cons_of_mem attr ha)
    have hnext := hothers.ends_head hrest hclosing rest
    obtain ⟨n₁, hread⟩ := readAttribute_placed hattr hplaced hnext before n
    obtain ⟨n₂, hloop⟩ := ih hrest (before ++ [attr]) n₁
    have hshorter : (others ++ closing :: rest).length <
        (first ++ (others ++ closing :: rest)).length := by
      obtain ⟨start, after, -, hscan⟩ := hplaced
      obtain ⟨token, tokens, hcons, -⟩ := hattr.exists_cons
      have htokens := congrArg List.length ((placed_tokens hattr.spells hscan).trans hcons)
      rw [List.length_map, List.length_cons] at htokens
      simp only [List.length_append]
      omega
    refine ⟨n₂, ?_⟩
    rw [List.append_assoc, loop, hread]
    simp only [if_pos hshorter]
    rw [hloop, List.append_assoc, List.singleton_append]

end Attribute

namespace Module

open Attribute

/-- An attribute group is read back with its number. -/
theorem readGroup_placed {source : List Char} {entry : List Attribute × Nat}
    {placed : List PlacedToken} (hgroup : PlacedGroup source entry placed)
    (h : ∀ attr ∈ entry.1, attr.Writable) (rest : List PlacedToken) (n : Nat) :
    ∃ n', readGroup source ⟨placed ++ rest, n⟩ =
      .ok ((UInt32.ofNat entry.2, entry.1), ⟨rest, n'⟩) := by
  obtain ⟨opening, attributes, closing, rfl, hopening, hall, hclosing⟩ := hgroup
  obtain ⟨n', hread⟩ := readAttributes_placed hall h hclosing [] rest n
  obtain ⟨⟨_, _⟩, _, rfl, rfl, hnumber⟩ := List.map_eq_cons_iff.mp hopening
  obtain ⟨⟨_, _⟩, _, rfl, rfl, hequals⟩ := List.map_eq_cons_iff.mp hnumber
  obtain ⟨⟨_, _⟩, _, rfl, rfl, hbrace⟩ := List.map_eq_cons_iff.mp hequals
  obtain ⟨⟨_, _⟩, rfl, rfl⟩ := List.map_eq_singleton_iff.mp hbrace
  refine ⟨n', ?_⟩
  rw [List.append_assoc, List.append_assoc, List.singleton_append]
  change Except.bind
    (loop .attributeEntry (readAttribute source) [] ⟨attributes ++ closing :: rest, n⟩) _ = _
  rw [hread]
  rfl

end Module

end QuantumIR
