import QuantumIR.Proofs.Token.Pieces
import QuantumIR.Proofs.Text.Numeral

/-!
Integer tokens and the literals that spell them. A literal is an optional minus sign and decimal
digits. What is cut out of a text as an integer is the literal of a number in the range of signed or
of unsigned words, and the token is the word of that number.
-/

namespace QuantumIR

namespace Text

/-- The number that a decimal literal spells. -/
def decimal? : List Char → Option Int
  | '-' :: digits => (digits? digits).map fun value => -(value : Int)
  | digits => (digits? digits).map Int.ofNat

/-- A word of 64 bits is read from the literal of a number that it stands for. -/
theorem decimal?_of_word64? {text : List Char} {word : Int64} (h : word64? text = some word) :
    ∃ n, decimal? text = some n ∧ -2 ^ 63 ≤ n ∧ n < 2 ^ 64 ∧ word = Int64.ofInt n := by
  have hsize : UInt64.size = 2 ^ 64 := rfl
  rw [word64?.eq_def] at h
  split at h
  · next rest =>
    obtain ⟨value, hvalue, h⟩ := Option.bind_eq_some_iff.mp h
    split at h
    · next hle =>
      refine ⟨-(value : Int), ?_, by omega, by omega, (Option.some.inj h).symm⟩
      rw [decimal?, hvalue]
      rfl
    · cases h
  · next text hsign =>
    obtain ⟨value, hvalue, h⟩ := Option.bind_eq_some_iff.mp h
    split at h
    · next hlt =>
      refine ⟨value, ?_, by omega, by omega, ?_⟩
      · rw [decimal?.eq_def]
        split
        · next digits => exact absurd rfl (hsign digits)
        · rw [hvalue]
          rfl
      · rw [← Option.some.inj h, Int64.ofInt_eq_ofNat]
    · cases h

end Text

namespace Cut

variable {word : Int64}

/-- The word of a number is that of its characters. -/
theorem word64?_of_number {text : List Char} (h : (number text).token? = some (.integer word)) :
    Text.word64? (text.take (number text).length) = some word := by
  rw [number] at h ⊢
  dsimp only at h ⊢
  split at h
  · exact absurd h (Option.some_ne_none _).symm
  · next hwhole =>
    rw [if_neg hwhole]
    split at h
    · cases h
    · split at h
      · next hplain =>
        rw [if_pos hplain]
        obtain ⟨found, hfound, hsame⟩ := Option.map_eq_some_iff.mp h
        cases hsame
        exact hfound
      · cases h

theorem word64?_of_longest {text : List Char} (h : (longest text).token? = some (.integer word)) :
    Text.word64? (text.take (longest text).length) = some word := by
  unfold longest at h ⊢
  split at h
  · exact absurd h (Option.some_ne_none _).symm
  · split at h
    · rcases Lexeme.wordToken?_cases h with ⟨_, heq⟩ | ⟨_, heq⟩ | ⟨_, heq⟩
      all_goals cases heq
    · next hletter =>
      rw [if_neg hletter]
      split at h
      · split at h
        · cases h
        · exact absurd h (Option.some_ne_none _).symm
      · next hpoint =>
        rw [if_neg hpoint]
        exact word64?_of_number h

theorem word64?_of_run {text : List Char} (h : (run text).token? = some (.integer word)) :
    Text.word64? (text.take (run text).length) = some word := by
  rw [run] at h ⊢
  dsimp only at h ⊢
  split at h
  · exact absurd h (Option.some_ne_none _).symm
  · next hempty =>
    rw [if_neg hempty]
    split at h
    · cases h
    · next hlabel =>
      rw [if_neg hlabel]
      split at h
      · next hlong =>
        rw [if_pos hlong]
        exact word64?_of_longest h
      · exact absurd h (Option.some_ne_none _).symm

theorem map_ne_integer {α : Type} {make : α → Token} (hmake : ∀ a, make a ≠ .integer word)
    (found : Option α) : found.map make ≠ some (.integer word) := by
  intro h
  obtain ⟨a, -, heq⟩ := Option.map_eq_some_iff.mp h
  exact hmake a heq

theorem word64?_of_bare {c : Char} {rest : List Char}
    (h : (bare c rest).token? = some (.integer word)) :
    Text.word64? ((c :: rest).take (bare c rest).length) = some word := by
  have hnamed : ∀ make : String → Token, (∀ name, make name ≠ .integer word) →
      (named rest make).token? ≠ some (.integer word) := by
    intro make hmake hfound
    rw [named] at hfound
    split at hfound
    · exact absurd hfound (Option.some_ne_none _).symm
    · exact hmake _ (Option.some.inj hfound)
  unfold bare at h ⊢
  split at h
  case h_1 => exact absurd h (hnamed _ fun _ => Token.noConfusion)
  case h_2 => exact absurd h (hnamed _ fun _ => Token.noConfusion)
  case h_3 =>
    rw [group] at h
    split at h
    · exact absurd h (Option.some_ne_none _).symm
    · exact absurd h (map_ne_integer (fun _ => Token.noConfusion) _)
  case h_4 => cases h
  case h_5 =>
    split at h
    · cases h
    · next hmark => exact word64?_of_run h

/-- A quoted form is no integer. -/
theorem quoted_ne_integer {before : Nat} {rest : List Char} {make : List Char → Option Token}
    (hmake : ∀ inner, make inner ≠ some (.integer word)) :
    (quoted before rest make).token? ≠ some (.integer word) := by
  intro h
  rw [quoted] at h
  split at h
  · exact hmake _ h
  · exact absurd h (Option.some_ne_none _).symm

/-- An integer is cut out of a text as the characters that spell it. -/
theorem word64?_of_first {c : Char} {rest : List Char}
    (h : (first c rest).token? = some (.integer word)) :
    Text.word64? ((c :: rest).take (first c rest).length) = some word := by
  by_cases hquote : c = '"'
  · subst hquote
    rw [Lexeme.first_quote, stringOrLabel] at h
    split at h
    · exact absurd h (map_ne_integer (fun _ => Token.noConfusion) _)
    · exact absurd h (quoted_ne_integer fun _ => map_ne_integer (fun _ => Token.noConfusion) _)
  · cases hquotes : quotes? c with
    | none =>
      rw [Lexeme.first_eq_bare hquote (Or.inl hquotes)] at h ⊢
      exact word64?_of_bare h
    | some make =>
      by_cases hhead : rest.head? = some '"'
      · obtain ⟨inner, rfl⟩ := List.head?_eq_some_iff.mp hhead
        rw [Lexeme.first_eq_quoted hquotes] at h
        refine absurd h (quoted_ne_integer fun inner => ?_)
        unfold quotes? at hquotes
        split at hquotes
        case h_4 => exact absurd hquotes (Option.some_ne_none make).symm
        all_goals
          cases hquotes
          exact map_ne_integer (fun _ => Token.noConfusion) _
      · rw [Lexeme.first_eq_bare hquote (Or.inr hhead)] at h ⊢
        exact word64?_of_bare h

end Cut

namespace Lexeme

open Text

/-- A piece of a text, with the bytes that it takes up. -/
def StandsAt (text piece : List Char) (span : Span) : Prop :=
  ∃ before after, text = before ++ piece ++ after ∧
    span = ⟨byteCount before, byteCount before + byteCount piece⟩

/-- A token is cut off a text that starts at a byte. -/
def CutAt (start : Nat) (text : List Char) (found : Token) (span : Span) : Prop :=
  ∃ before c rest, text = before ++ c :: rest ∧ (Cut.first c rest).token? = some found ∧
    span = ⟨start + byteCount before, start + byteCount before +
      byteCount (c :: rest.take ((Cut.first c rest).length - 1))⟩

theorem CutAt.prepend {start : Nat} {front text : List Char} {found : Token} {span : Span}
    (h : CutAt (start + byteCount front) text found span) :
    CutAt start (front ++ text) found span := by
  obtain ⟨before, c, rest, rfl, hcut, rfl⟩ := h
  refine ⟨front ++ before, c, rest, by rw [List.append_assoc], hcut, ?_⟩
  rw [byteCount_append, Nat.add_assoc]

/-- Each token is cut off where it stands. -/
theorem cutAt_of_mem {start : Nat} {text : List Char} {found : Token} {span : Span}
    (h : .token found span ∈ scanFrom start text) : CutAt start text found span := by
  induction start, text using scanFrom.induct with
  | case1 start =>
    rw [scanFrom] at h
    exact absurd h List.not_mem_nil
  | case2 start c rest hspace ih =>
    rw [scanFrom, if_pos hspace] at h
    have hcount : byteCount [c] = 1 := utf8Size_of_isSpace hspace
    have hrest := ih h
    rw [← hcount] at hrest
    exact hrest.prepend
  | case3 start rest comment hspace ih =>
    rw [scanFrom, if_neg hspace, if_pos rfl] at h
    have hwhole : ';' :: rest = (';' :: comment) ++ rest.drop comment.length :=
      congrArg _ (List.prefix_iff_eq_append.mp (List.takeWhile_prefix _)).symm
    have hrest := ih h
    rw [Nat.add_assoc] at hrest
    rw [hwhole]
    exact CutAt.prepend hrest
  | case4 start c rest hspace hcomment cut piece stop ih =>
    rw [Bool.not_eq_true] at hspace
    rw [scanFrom_first hspace hcomment] at h
    rcases List.mem_cons.mp h with hfirst | hothers
    · cases htoken : (Cut.first c rest).token? with
      | none =>
        rw [htoken] at hfirst
        cases hfirst
      | some token =>
        rw [htoken] at hfirst
        obtain ⟨rfl, rfl⟩ := Lexeme.token.inj hfirst
        exact ⟨[], c, rest, rfl, htoken, rfl⟩
    · have hwhole : c :: rest = piece ++ rest.drop (cut.length - 1) :=
        congrArg _ (List.take_append_drop _ _).symm
      rw [hwhole]
      exact (ih hothers).prepend

/-- Where an integer stands in a text, a literal spells the number that it is the word of. -/
theorem decimal?_of_mem_scan {text : List Char} {word : Int64} {span : Span}
    (h : .token (.integer word) span ∈ scan text) :
    ∃ piece n, StandsAt text piece span ∧ decimal? piece = some n ∧ -2 ^ 63 ≤ n ∧ n < 2 ^ 64 ∧
      word = Int64.ofInt n := by
  obtain ⟨before, c, rest, htext, hcut, hspan⟩ := cutAt_of_mem h
  rw [Nat.zero_add] at hspan
  obtain ⟨n, hn⟩ := decimal?_of_word64? (Cut.word64?_of_first hcut)
  have hcut' : Cut.first c rest = ⟨(Cut.first c rest).length, some (.integer word)⟩ := by
    rw [← hcut]
  have hlength := (Cut.first_bounds hcut').1
  have hpiece : (c :: rest).take (Cut.first c rest).length =
      c :: rest.take ((Cut.first c rest).length - 1) := by
    obtain ⟨length, hlength⟩ := Nat.exists_eq_add_of_lt hlength
    rw [hlength]
    simp
  rw [hpiece] at hn
  refine ⟨_, n, ⟨before, rest.drop ((Cut.first c rest).length - 1), ?_, hspan⟩, hn⟩
  rw [htext, List.append_assoc, List.cons_append, List.take_append_drop]

end Lexeme

end QuantumIR
