import QuantumIR.Proofs.Source.Metadata

/-!
The first line of a text is blanked by itself: whether it is one of metadata does not depend on the
lines after it.
-/

namespace QuantumIR.Source

/-- Lines of a text that starts with a row without line breaks. -/
theorem lines_append_newline {body : List Char} (h : '\n' ∉ body) (rest : List Char) :
    lines (body ++ '\n' :: rest) = (body ++ ['\n']) :: lines rest := by
  induction body with
  | nil => rw [List.nil_append, lines, if_pos rfl, List.nil_append]
  | cons c body ih =>
    rw [List.mem_cons, not_or] at h
    rw [List.cons_append, lines_cons (Ne.symm h.1), ih h.2]
    rfl

theorem lines_of_not_mem {body : List Char} (h : '\n' ∉ body) (hne : body ≠ []) :
    lines body = [body] := by
  induction body with
  | nil => exact absurd rfl hne
  | cons c body ih =>
    rw [List.mem_cons, not_or] at h
    rw [lines_cons (Ne.symm h.1)]
    cases body with
    | nil => rfl
    | cons d body =>
      rw [ih h.2 (List.cons_ne_nil d body)]
      rfl

theorem newline_not_mem_blank {body : List Char} (h : '\n' ∉ body) :
    '\n' ∉ body.map blankChar := by
  intro hmem
  obtain ⟨c, hc, hblank⟩ := List.mem_map.mp hmem
  rw [blankChar] at hblank
  split at hblank
  · exact h (hblank ▸ hc)
  · exact absurd hblank (by decide)

/-- A text is a row without line breaks, and then nothing or a line break and the other lines. -/
theorem exists_first_line (text : List Char) : ∃ body rest, text = body ++ rest ∧ '\n' ∉ body ∧
    (rest = [] ∨ ∃ more, rest = '\n' :: more) := by
  induction text with
  | nil => exact ⟨[], [], rfl, List.not_mem_nil, .inl rfl⟩
  | cons c text ih =>
    by_cases hc : c = '\n'
    · exact ⟨[], c :: text, rfl, List.not_mem_nil, .inr ⟨text, by rw [hc]⟩⟩
    · obtain ⟨body, rest, rfl, hbody, hrest⟩ := ih
      exact ⟨c :: body, rest, rfl, by simpa using ⟨Ne.symm hc, hbody⟩, hrest⟩

theorem takeWhile_first_line {body rest : List Char} (hbody : '\n' ∉ body)
    (hrest : rest = [] ∨ ∃ more, rest = '\n' :: more) :
    (body ++ rest).takeWhile (· ≠ '\n') = body := by
  rw [List.takeWhile_append_of_pos fun c hc => by
    simpa using fun heq : c = '\n' => hbody (heq ▸ hc)]
  rcases hrest with rfl | ⟨more, rfl⟩ <;> simp

/-- A line without its line break, as blanking leaves it. -/
def blankLine (body : List Char) : List Char :=
  if isMetadata body then body.map blankChar else body

theorem newline_not_mem_blankLine {body : List Char} (h : '\n' ∉ body) :
    '\n' ∉ blankLine body := by
  unfold blankLine
  split
  · exact newline_not_mem_blank h
  · exact h

theorem blankMetadata_of_not_mem {body : List Char} (h : '\n' ∉ body) :
    blankMetadata body = blankLine body := by
  by_cases hne : body = []
  · subst hne
    rfl
  · rw [blankMetadata, lines_of_not_mem h hne, List.flatMap_singleton, blankLine]

theorem blankMetadata_cons_line {body : List Char} (h : '\n' ∉ body) (rest : List Char) :
    blankMetadata (body ++ '\n' :: rest) = blankLine body ++ '\n' :: blankMetadata rest := by
  have hbreak : (if isMetadata body then (body ++ ['\n']).map blankChar else body ++ ['\n']) =
      blankLine body ++ ['\n'] := by
    rw [List.map_append, blankLine]
    split <;> rfl
  rw [blankMetadata, lines_append_newline h, List.flatMap_cons, isMetadata_append_newline, hbreak,
    List.append_assoc]
  rfl

/-- The first line is blanked by itself. -/
theorem takeWhile_blankMetadata (text : List Char) :
    (blankMetadata text).takeWhile (· ≠ '\n') =
      if isMetadata (text.takeWhile (· ≠ '\n')) then
        (text.takeWhile (· ≠ '\n')).map blankChar
      else text.takeWhile (· ≠ '\n') := by
  obtain ⟨body, rest, rfl, hbody, hrest⟩ := exists_first_line text
  have hblank := newline_not_mem_blankLine hbody
  rw [takeWhile_first_line hbody hrest, ← blankLine]
  rcases hrest with rfl | ⟨more, rfl⟩
  · have hfirst := takeWhile_first_line hblank (.inl rfl)
    rw [List.append_nil] at hfirst ⊢
    rw [blankMetadata_of_not_mem hbody, hfirst]
  · rw [blankMetadata_cons_line hbody, takeWhile_first_line hblank (.inr ⟨_, rfl⟩)]

end QuantumIR.Source
