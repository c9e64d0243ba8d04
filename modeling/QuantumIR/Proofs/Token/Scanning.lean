import QuantumIR.Proofs.Source.Metadata
import QuantumIR.Proofs.Text.Numeral
import QuantumIR.Token.Lexer

/-!
Cutting a text into tokens piece by piece. A text spells tokens if it is cut into them
wherever it stands, whatever follows it, as long as what follows keeps its distance, and if no
line of it is one of metadata. Texts that spell tokens are put together into longer ones that do.
-/

namespace QuantumIR

namespace Text

theorem byteCount_append (a b : List Char) : byteCount (a ++ b) = byteCount a + byteCount b := by
  induction a with
  | nil => simp [byteCount]
  | cons c rest ih => simp [byteCount, ih, Nat.add_assoc]

end Text

namespace Lexeme

/-- The token that a piece is, if it is one. -/
def token? : Lexeme → Option Token
  | token found _ => some found
  | invalid .. => none

/-- Whether a character ends every run before it: a run stops there and is no label, no prefix
of a string and no number with a signed exponent. -/
def closes (c : Char) : Bool :=
  !Text.isNameChar c && c ≠ ':' && c ≠ '"' && c ≠ '+'

/-- A text before which every run ends. -/
def Closed (post : List Char) : Prop :=
  ∀ c rest, post = c :: rest → closes c

/-- Any text at all. -/
def Anything (_post : List Char) : Prop := True

theorem closed_nil : Closed [] := by
  intro c rest h
  exact absurd h (List.cons_ne_nil c rest).symm

theorem closed_cons {c : Char} {rest : List Char} : Closed (c :: rest) ↔ closes c := by
  constructor
  · intro h
    exact h c rest rfl
  · intro h d others heq
    cases heq
    exact h

theorem Closed.append {text post : List Char} (h : Closed text) (hpost : Closed post) :
    Closed (text ++ post) := by
  cases text with
  | nil => exact hpost
  | cons c rest => exact closed_cons.mpr (closed_cons.mp h)

/-- A text is cut into the given tokens, with `none` for characters that spell none, and what
follows it is cut as if it stood alone. -/
structure Spells (after : List Char → Prop) (text : List Char) (tokens : List (Option Token)) :
    Prop where
  ends : after []
  split : ∀ start post, after post → scanFrom start (text ++ post) =
    scanFrom start text ++ scanFrom (start + Text.byteCount text) post
  tokens : ∀ start, (scanFrom start text).map token? = tokens
  calm : Source.Calm text

variable {after after' : List Char → Prop} {text text' : List Char}
  {tokens tokens' : List (Option Token)}

/-- Two texts in a row spell the tokens of both, if the second keeps its distance. -/
theorem Spells.append (h : Spells after text tokens) (h' : Spells after' text' tokens')
    (hjoin : ∀ post, after' post → after (text' ++ post)) :
    Spells after' (text ++ text') (tokens ++ tokens') := by
  have hjoin' : after text' := by
    have := hjoin [] h'.ends
    rwa [List.append_nil] at this
  refine ⟨h'.ends, ?_, ?_, h.calm.append h'.calm⟩
  · intro start post hpost
    rw [List.append_assoc, h.split start _ (hjoin post hpost), h'.split _ post hpost,
      h.split start text' hjoin', Text.byteCount_append, List.append_assoc, Nat.add_assoc]
  · intro start
    rw [h.split start text' hjoin', List.map_append, h.tokens, h'.tokens]

/-- After a text that stands anywhere, anything may follow. -/
theorem Spells.then (h : Spells Anything text tokens) (h' : Spells after' text' tokens') :
    Spells after' (text ++ text') (tokens ++ tokens') :=
  h.append h' fun _ _ => trivial

theorem Spells.weaken (h : Spells Anything text tokens) : Spells Closed text tokens :=
  ⟨closed_nil, fun start post _ => h.split start post trivial, h.tokens, h.calm⟩

theorem Spells.empty : Spells Anything [] [] :=
  ⟨trivial, fun start post _ => by simp [scanFrom, Text.byteCount], fun start => by simp [scanFrom],
    rfl⟩

/-- The piece that starts at byte `start` and has been cut off as `text`. -/
def ofCut (found? : Option Token) (text : List Char) (start : Nat) : Lexeme :=
  match found? with
  | some found => .token found ⟨start, start + Text.byteCount text⟩
  | none => .invalid (String.ofList text) ⟨start, start + Text.byteCount text⟩

theorem token?_ofCut (found? : Option Token) (text : List Char) (start : Nat) :
    (ofCut found? text start).token? = found? := by
  cases found? <;> rfl

/-- Scanning takes one cut off a text that starts with neither white space nor a comment. -/
theorem scanFrom_cut {c : Char} {rest post : List Char} {found? : Option Token} (start : Nat)
    (hspace : Cut.isSpace c = false) (hcomment : c ≠ ';')
    (hcut : Cut.first c (rest ++ post) = ⟨rest.length + 1, found?⟩) :
    scanFrom start (c :: rest ++ post) =
      ofCut found? (c :: rest) start :: scanFrom (start + Text.byteCount (c :: rest)) post := by
  rw [List.cons_append, scanFrom, if_neg (by simp [hspace]), if_neg hcomment, hcut]
  simp only [Nat.add_sub_cancel, List.take_left, List.drop_left]
  cases found? <;> rfl

/-- A text that is cut off whole, as one piece, before any text that may follow it. -/
structure IsPiece (after : List Char → Prop) (text : List Char) (found? : Option Token) : Prop where
  ends : after []
  cut : ∃ c rest, text = c :: rest ∧ Cut.isSpace c = false ∧ c ≠ ';' ∧
    ∀ post, after post → Cut.first c (rest ++ post) = ⟨rest.length + 1, found?⟩

theorem IsPiece.scanFrom_append {found? : Option Token} (h : IsPiece after text found?)
    (start : Nat) {post : List Char} (hpost : after post) :
    Lexeme.scanFrom start (text ++ post) =
      ofCut found? text start :: Lexeme.scanFrom (start + Text.byteCount text) post := by
  obtain ⟨c, rest, rfl, hspace, hcomment, hcut⟩ := h.cut
  exact scanFrom_cut start hspace hcomment (hcut post hpost)

/-- A piece by itself is cut into nothing but itself. -/
theorem IsPiece.scanFrom_eq {found? : Option Token} (h : IsPiece after text found?)
    (start : Nat) : Lexeme.scanFrom start text = [ofCut found? text start] := by
  have halone := h.scanFrom_append start h.ends
  rwa [List.append_nil, scanFrom] at halone

/-- A piece spells what it was cut off as. -/
theorem IsPiece.spells {found? : Option Token} (h : IsPiece after text found?)
    (hcalm : Source.Calm text) : Spells after text [found?] := by
  refine ⟨h.ends, ?_, ?_, hcalm⟩
  · intro start post hpost
    rw [h.scanFrom_append start hpost, h.scanFrom_eq, List.singleton_append]
  · intro start
    rw [h.scanFrom_eq, List.map_singleton, token?_ofCut]

theorem Spells.of_first {c : Char} {rest : List Char} {found? : Option Token} (ends : after [])
    (hspace : Cut.isSpace c = false) (hcomment : c ≠ ';') (hcalm : Source.Calm (c :: rest))
    (hcut : ∀ post, after post → Cut.first c (rest ++ post) = ⟨rest.length + 1, found?⟩) :
    Spells after (c :: rest) [found?] :=
  have hpiece : IsPiece after (c :: rest) found? := ⟨ends, c, rest, rfl, hspace, hcomment, hcut⟩
  hpiece.spells hcalm

/-- White space spells nothing. -/
theorem Spells.space {c : Char} (h : Cut.isSpace c) (hsize : c.utf8Size = 1) :
    Spells Anything [c] [] := by
  have hmark : '!' ∉ [c] := by
    rw [List.mem_singleton]
    rintro rfl
    exact absurd h (by decide)
  refine ⟨trivial, ?_, ?_, Source.calm_of_not_mem hmark⟩
  · intro start post _
    rw [List.cons_append, scanFrom, if_pos h, scanFrom, if_pos h]
    simp [scanFrom, Text.byteCount, hsize]
  · intro start
    rw [scanFrom, if_pos h]
    simp [scanFrom]

theorem Spells.blank : Spells Anything [' '] [] := Spells.space rfl rfl

theorem Spells.newline : Spells Anything ['\n'] [] := Spells.space rfl rfl

/-- A comment spells nothing up to the end of its line. -/
theorem Spells.comment {body : List Char} (h : '\n' ∉ body) :
    Spells Anything (';' :: body ++ ['\n']) [] := by
  have hwhile : ∀ post, (body ++ '\n' :: post).takeWhile (· ≠ '\n') = body := by
    intro post
    rw [List.takeWhile_append_of_pos, List.takeWhile_cons_of_neg (by simp), List.append_nil]
    intro c hc
    simpa using ne_of_mem_of_not_mem hc h
  have hscan : ∀ start post, scanFrom start (';' :: body ++ ['\n'] ++ post) =
      scanFrom (start + Text.byteCount (';' :: body ++ ['\n'])) post := by
    intro start post
    have hcount : start + Text.byteCount (';' :: body ++ ['\n']) =
        start + 1 + Text.byteCount body + 1 := by
      rw [List.cons_append, Text.byteCount, Text.byteCount_append]
      show start + (1 + (Text.byteCount body + 1)) = _
      omega
    rw [hcount, List.cons_append, List.cons_append, List.append_assoc, List.singleton_append,
      scanFrom, if_neg (by decide), if_pos rfl]
    simp only [hwhile, List.drop_left]
    rw [scanFrom, if_pos (by decide)]
  have halone : ∀ start, scanFrom start (';' :: body ++ ['\n']) = [] := by
    intro start
    have := hscan start []
    rwa [List.append_nil, scanFrom] at this
  have hcalm : Source.Calm (';' :: body ++ ['\n']) := by
    have hline : Source.Calm (';' :: body) :=
      Source.calm_cons rfl (by decide) (Source.calmFrom_false_of_not_mem h)
    exact hline.append rfl
  refine ⟨trivial, ?_, ?_, hcalm⟩
  · intro start post _
    rw [hscan, halone, List.nil_append]
  · intro start
    rw [halone, List.map_nil]

end Lexeme

end QuantumIR
