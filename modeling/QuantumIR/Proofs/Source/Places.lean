import QuantumIR.Proofs.Source.FirstLine
import QuantumIR.Proofs.Token.Scanning

/-!
Blanking keeps places. A blanked text has the characters of the text, one for one, but for the lines
of metadata, so that a place outside of those has the same line and column in both. Bytes are kept
only where a line of metadata is spelled in ASCII: behind any other the columns are smaller in the
blanked text, which shows at the end of a text that such a line ends.
-/

namespace QuantumIR.Source

open Text

/-- What stands behind the last line break of a text. -/
def lastLine (text : List Char) : List Char :=
  text.rtakeWhile (· ≠ '\n')

theorem lastLine_of_not_mem {body : List Char} (h : '\n' ∉ body) : lastLine body = body := by
  rw [lastLine, List.rtakeWhile_eq_self_iff]
  intro c hc
  simpa using fun heq : c = '\n' => h (heq ▸ hc)

theorem lastLine_append (front rest : List Char) :
    lastLine (front ++ '\n' :: rest) = lastLine rest := by
  unfold lastLine
  induction rest using List.reverseRecOn with
  | nil => rw [List.rtakeWhile_concat_neg _ _ _ (by simp), List.rtakeWhile_nil]
  | append_singleton rest c ih =>
    rw [← List.cons_append, ← List.append_assoc]
    by_cases hc : c = '\n'
    · rw [List.rtakeWhile_concat_neg _ _ _ (by simpa using hc),
        List.rtakeWhile_concat_neg _ _ _ (by simpa using hc)]
    · rw [List.rtakeWhile_concat_pos _ _ _ (by simpa using hc),
        List.rtakeWhile_concat_pos _ _ _ (by simpa using hc), ih]

/-- A text is one row without line breaks, or such a row, a line break and another text. -/
theorem induction_of_lines {P : List Char → Prop} (last : ∀ body, '\n' ∉ body → P body)
    (line : ∀ body rest, '\n' ∉ body → P rest → P (body ++ '\n' :: rest)) (text : List Char) :
    P text := by
  induction hlength : text.length using Nat.strong_induction_on generalizing text with
  | _ length ih =>
    obtain ⟨body, rest, rfl, hbody, rfl | ⟨more, rfl⟩⟩ := exists_first_line text
    · rw [List.append_nil]
      exact last body hbody
    · refine line body more hbody (ih more.length ?_ more rfl)
      rw [← hlength, List.length_append, List.length_cons]
      omega

theorem length_blankLine (body : List Char) : (blankLine body).length = body.length := by
  unfold blankLine
  split
  · exact List.length_map _
  · rfl

theorem length_blankMetadata (text : List Char) : (blankMetadata text).length = text.length := by
  induction text using induction_of_lines with
  | last body hbody => rw [blankMetadata_of_not_mem hbody, length_blankLine]
  | line body rest hbody ih =>
    rw [blankMetadata_cons_line hbody, List.length_append, List.length_append, List.length_cons,
      List.length_cons, length_blankLine, ih]

/-- At a line break a text can be blanked in two parts. -/
theorem blankMetadata_append (front rest : List Char) :
    blankMetadata (front ++ '\n' :: rest) = blankMetadata front ++ '\n' :: blankMetadata rest := by
  induction front using induction_of_lines with
  | last body hbody => rw [blankMetadata_cons_line hbody, blankMetadata_of_not_mem hbody]
  | line body more hbody ih =>
    rw [List.append_assoc, List.cons_append, blankMetadata_cons_line hbody, ih,
      blankMetadata_cons_line hbody, List.append_assoc, List.cons_append]

/-- A text without lines of metadata, or one that starts with such a line, or a calm text in front
of one that does. -/
theorem calm_or_metadata (text : List Char) : Calm text ∨
    (∃ body rest, text = body ++ rest ∧ '\n' ∉ body ∧ isMetadata body ∧
      (rest = [] ∨ ∃ more, rest = '\n' :: more)) ∨
    ∃ front rest, text = front ++ '\n' :: rest ∧ Calm front ∧
      isMetadata (rest.takeWhile (· ≠ '\n')) := by
  induction text using induction_of_lines with
  | last body hbody =>
    by_cases hmeta : isMetadata body
    · exact .inr (.inl ⟨body, [], (List.append_nil body).symm, hbody, hmeta, .inl rfl⟩)
    · rw [Bool.not_eq_true] at hmeta
      exact .inl (calm_of_isMetadata_eq_false hbody hmeta)
  | line body rest hbody ih =>
    by_cases hmeta : isMetadata body
    · exact .inr (.inl ⟨body, _, rfl, hbody, hmeta, .inr ⟨rest, rfl⟩⟩)
    · rw [Bool.not_eq_true] at hmeta
      have hcalm := calm_of_isMetadata_eq_false hbody hmeta
      have hbreak : ∀ text, Calm text → Calm (body ++ '\n' :: text) := by
        intro text htext
        refine hcalm.append ?_
        rwa [Calm, calmFrom, if_pos rfl]
      rcases ih with hrest | ⟨line, more, rfl, hline, hfirst, hmore⟩ |
        ⟨front, more, rfl, hfront, hfirst⟩
      · exact .inl (hbreak rest hrest)
      · refine .inr (.inr ⟨body, line ++ more, rfl, hcalm, ?_⟩)
        rwa [takeWhile_first_line hline hmore]
      · exact .inr (.inr ⟨body ++ '\n' :: front, more, by simp, hbreak front hfront, hfirst⟩)

theorem foldl_advance_of_not_mem {body : List Char} (h : '\n' ∉ body) (start : Position) :
    body.foldl Position.advance start = ⟨start.line, start.column + byteCount body⟩ := by
  induction body generalizing start with
  | nil => rfl
  | cons c body ih =>
    rw [List.mem_cons, not_or] at h
    rw [List.foldl_cons, ih h.2, Position.advance, if_neg (Ne.symm h.1), byteCount, Nat.add_assoc]

theorem after_of_not_mem {body : List Char} (h : '\n' ∉ body) :
    Position.after body = ⟨1, 1 + byteCount body⟩ :=
  foldl_advance_of_not_mem h ⟨1, 1⟩

theorem foldl_advance_succ (text : List Char) (line column : Nat) :
    text.foldl Position.advance ⟨line + 1, column⟩ =
      ⟨(text.foldl Position.advance ⟨line, column⟩).line + 1,
        (text.foldl Position.advance ⟨line, column⟩).column⟩ := by
  induction text generalizing line column with
  | nil => rfl
  | cons c text ih =>
    rw [List.foldl_cons, List.foldl_cons, Position.advance, Position.advance]
    split
    · exact ih (line + 1) 1
    · exact ih line (column + c.utf8Size)

/-- Behind a line, a place is one line further down. -/
theorem after_cons_line {body : List Char} (h : '\n' ∉ body) (rest : List Char) :
    Position.after (body ++ '\n' :: rest) =
      ⟨(Position.after rest).line + 1, (Position.after rest).column⟩ := by
  rw [Position.after, List.foldl_append, ← Position.after, after_of_not_mem h]
  exact foldl_advance_succ rest 1 1

/-- Blanked characters are spelled by one byte and are white space to the scanner. -/
theorem blankChar_space (c : Char) : (blankChar c).utf8Size = 1 ∧ Cut.isSpace (blankChar c) := by
  unfold blankChar
  split
  · rename_i h
    rcases h with rfl | rfl <;> decide
  · decide

/-- A character of a blanked line that is no white space stands in the line as well. -/
theorem blankLine_eq_of_getElem? {body : List Char} {n : Nat} {c : Char}
    (hc : (blankLine body)[n]? = some c) (hspace : Cut.isSpace c = false) :
    blankLine body = body := by
  unfold blankLine at hc ⊢
  split
  · rename_i hmeta
    rw [if_pos hmeta, List.getElem?_map] at hc
    obtain ⟨d, -, rfl⟩ := Option.map_eq_some_iff.mp hc
    rw [(blankChar_space d).2] at hspace
    cases hspace
  · rfl

/-- A character that is left over from blanking and is no white space has the line and the column
that it has in the text. -/
theorem after_take_blankMetadata {text : List Char} {n : Nat} {c : Char}
    (hc : (blankMetadata text)[n]? = some c) (hspace : Cut.isSpace c = false) :
    Position.after ((blankMetadata text).take n) = Position.after (text.take n) := by
  induction text using induction_of_lines generalizing n with
  | last body hbody =>
    rw [blankMetadata_of_not_mem hbody] at hc ⊢
    rw [blankLine_eq_of_getElem? hc hspace]
  | line body rest hbody ih =>
    rw [blankMetadata_cons_line hbody] at hc ⊢
    have hlength := length_blankLine body
    rcases Nat.lt_trichotomy n body.length with hn | hn | hn
    · rw [List.getElem?_append_left (by omega)] at hc
      rw [List.take_append_of_le_length (by omega), List.take_append_of_le_length (by omega),
        blankLine_eq_of_getElem? hc hspace]
    · -- the line break itself
      rw [List.getElem?_append_right (by omega), hlength, hn, Nat.sub_self] at hc
      cases hc
      exact absurd hspace (by decide)
    · obtain ⟨m, rfl⟩ := Nat.exists_eq_add_of_lt hn
      have hbreak : ∀ line others : List Char, line.length = body.length →
          (line ++ '\n' :: others).take (body.length + m + 1) = line ++ '\n' :: others.take m := by
        intro line others hline
        rw [← hline, Nat.add_assoc, List.take_length_add_append, List.take_succ_cons]
      rw [List.getElem?_append_right (by omega), hlength, Nat.add_assoc, Nat.add_sub_cancel_left,
        List.getElem?_cons_succ] at hc
      rw [hbreak _ _ hlength, hbreak _ _ rfl, after_cons_line (newline_not_mem_blankLine hbody),
        after_cons_line hbody, ih hc]

theorem byteCount_map_blankChar (body : List Char) :
    byteCount (body.map blankChar) = body.length := by
  induction body with
  | nil => rfl
  | cons c body ih =>
    rw [List.map_cons, byteCount, ih, (blankChar_space c).1, List.length_cons, Nat.add_comm]

theorem length_le_byteCount (text : List Char) : text.length ≤ byteCount text := by
  induction text with
  | nil => exact Nat.le_refl 0
  | cons c text ih =>
    have := c.utf8Size_pos
    rw [byteCount, List.length_cons]
    omega

/-- A text has as many bytes as characters if each of them is spelled by one byte. -/
theorem byteCount_eq_length_iff (text : List Char) :
    text.length = byteCount text ↔ ∀ c ∈ text, c.utf8Size = 1 := by
  induction text with
  | nil => simp [byteCount]
  | cons c text ih =>
    have hpos := c.utf8Size_pos
    have hle := length_le_byteCount text
    rw [List.forall_mem_cons, ← ih, byteCount, List.length_cons]
    omega

/-- The end of a text has its line and its column in the blanked text too, unless the last line is
one of metadata with a character of several bytes. -/
theorem after_blankMetadata_eq_iff (text : List Char) :
    Position.after (blankMetadata text) = Position.after text ↔
      (isMetadata (lastLine text) → ∀ c ∈ lastLine text, c.utf8Size = 1) := by
  induction text using induction_of_lines with
  | last body hbody =>
    rw [blankMetadata_of_not_mem hbody, lastLine_of_not_mem hbody, after_of_not_mem hbody,
      after_of_not_mem (newline_not_mem_blankLine hbody), ← byteCount_eq_length_iff, blankLine]
    split
    · rename_i hmeta
      simp [hmeta, byteCount_map_blankChar]
    · rename_i hmeta
      simp [hmeta]
  | line body rest hbody ih =>
    rw [blankMetadata_cons_line hbody, lastLine_append, after_cons_line hbody,
      after_cons_line (newline_not_mem_blankLine hbody), ← ih]
    generalize Position.after (blankMetadata rest) = a, Position.after rest = b
    cases a
    cases b
    simp

end QuantumIR.Source
