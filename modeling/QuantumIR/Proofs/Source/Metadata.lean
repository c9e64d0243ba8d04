import Mathlib
import QuantumIR.Source

/-!
Metadata lines. A text is calm if none of its lines starts with an exclamation mark. Blanking
leaves a calm text as it is and makes every text calm, and calm texts in a row are calm.
-/

namespace QuantumIR.Source

open Text

/-- Reads a text up to the end or to an exclamation mark that starts a line. The flag tells
whether only white space has been read of the line so far. -/
def calmFrom : Bool → List Char → Bool
  | _, [] => true
  | fresh, c :: rest =>
    if c = '\n' then calmFrom true rest
    else if fresh then
      if isBlank c then calmFrom true rest
      else if c = '!' then false
      else calmFrom false rest
    else calmFrom false rest

/-- A text in which no line is one of metadata. -/
def Calm (text : List Char) : Prop := calmFrom true text

theorem calmFrom_mono {text : List Char} (h : calmFrom true text) (fresh : Bool) :
    calmFrom fresh text := by
  cases fresh with
  | true => exact h
  | false =>
    induction text with
    | nil => rfl
    | cons c rest ih =>
      rw [calmFrom] at h ⊢
      split
      case isTrue hc => rwa [if_pos hc] at h
      case isFalse hc =>
        rw [if_neg hc, if_pos rfl] at h
        rw [if_neg Bool.false_ne_true]
        split at h
        · exact ih h
        · split at h
          · exact absurd h Bool.false_ne_true
          · exact h

theorem calmFrom_append {a b : List Char} {fresh : Bool} (ha : calmFrom fresh a) (hb : Calm b) :
    calmFrom fresh (a ++ b) := by
  induction a generalizing fresh with
  | nil => exact calmFrom_mono hb fresh
  | cons c rest ih =>
    rw [List.cons_append]
    rw [calmFrom] at ha ⊢
    split
    case isTrue hc =>
      rw [if_pos hc] at ha
      exact ih ha
    case isFalse hc =>
      rw [if_neg hc] at ha
      split
      case isTrue hfresh =>
        rw [if_pos hfresh] at ha
        split at ha
        case isTrue hblank =>
          rw [if_pos hblank]
          exact ih ha
        case isFalse hblank =>
          rw [if_neg hblank]
          split at ha
          case isTrue => exact absurd ha Bool.false_ne_true
          case isFalse hmark =>
            rw [if_neg hmark]
            exact ih ha
      case isFalse hfresh =>
        rw [if_neg hfresh] at ha
        exact ih ha

theorem Calm.append {a b : List Char} (ha : Calm a) (hb : Calm b) : Calm (a ++ b) :=
  calmFrom_append ha hb

/-- What stands before or after some place of a calm text is calm, if no line starts there. -/
theorem calmFrom_of_append {a b : List Char} {fresh : Bool} (h : calmFrom fresh (a ++ b)) :
    calmFrom fresh a ∧ calmFrom false b := by
  induction a generalizing fresh with
  | nil =>
    refine ⟨rfl, ?_⟩
    cases fresh with
    | true => exact calmFrom_mono h false
    | false => exact h
  | cons c rest ih =>
    rw [List.cons_append] at h
    rw [calmFrom] at h ⊢
    split at h
    case isTrue hc =>
      rw [if_pos hc]
      exact ih h
    case isFalse hc =>
      rw [if_neg hc]
      split at h
      case isTrue hfresh =>
        rw [if_pos hfresh]
        split at h
        case isTrue hblank =>
          rw [if_pos hblank]
          exact ih h
        case isFalse hblank =>
          rw [if_neg hblank]
          split at h
          case isTrue => exact absurd h Bool.false_ne_true
          case isFalse hmark =>
            rw [if_neg hmark]
            exact ih h
      case isFalse hfresh =>
        rw [if_neg hfresh]
        exact ih h

theorem calm_of_not_mem {text : List Char} (h : '!' ∉ text) : Calm text := by
  have hall : ∀ fresh, calmFrom fresh text := by
    induction text with
    | nil =>
      intro fresh
      rfl
    | cons c rest ih =>
      intro fresh
      have hrest := ih fun hc => h (List.mem_cons_of_mem c hc)
      have hc : c ≠ '!' := fun hc => h (hc ▸ List.mem_cons_self)
      rw [calmFrom, if_neg hc, hrest, hrest]
      simp
  exact hall true

/-- Inside a line exclamation marks do not matter. -/
theorem calmFrom_false_of_not_mem {text : List Char} (h : '\n' ∉ text) : calmFrom false text := by
  induction text with
  | nil => rfl
  | cons c rest ih =>
    have hc : c ≠ '\n' := fun hc => h (hc ▸ List.mem_cons_self)
    rw [calmFrom, if_neg hc, if_neg Bool.false_ne_true]
    exact ih fun hc => h (List.mem_cons_of_mem c hc)

/-- A text is calm if it starts with a mark of its own and goes on calmly. -/
theorem calm_cons {c : Char} {rest : List Char} (hblank : isBlank c = false) (hmark : c ≠ '!')
    (h : calmFrom false rest) : Calm (c :: rest) := by
  have hnewline : c ≠ '\n' := by
    rintro rfl
    exact absurd hblank (by decide)
  rw [Calm, calmFrom, if_neg hnewline, if_pos rfl, if_neg (by simp [hblank]), if_neg hmark]
  exact h

theorem lines_cons {c : Char} (hc : c ≠ '\n') (rest : List Char) :
    lines (c :: rest) = (c :: (lines rest).headD []) :: (lines rest).tail := by
  rw [lines, if_neg hc]
  cases lines rest <;> rfl

theorem flatten_lines (text : List Char) : (lines text).flatten = text := by
  induction text with
  | nil => rfl
  | cons c rest ih =>
    by_cases hc : c = '\n'
    · rw [lines, if_pos hc, List.flatten_cons, ih, List.singleton_append]
    · rw [lines_cons hc]
      conv_rhs => rw [← ih]
      cases lines rest <;> rfl

theorem isMetadata_cons (c : Char) (line : List Char) :
    isMetadata (c :: line) = if isBlank c then isMetadata line else c = '!' := by
  rw [isMetadata, trimStart, List.dropWhile_cons]
  split
  · rfl
  · simp

/-- A text is calm up to its first line exactly if that line and the others are no metadata. -/
theorem calmFrom_iff (fresh : Bool) (text : List Char) : calmFrom fresh text ↔
    (fresh = true → ∀ line ∈ (lines text).head?, isMetadata line = false) ∧
      ∀ line ∈ (lines text).tail, isMetadata line = false := by
  induction text generalizing fresh with
  | nil => simp [calmFrom, lines]
  | cons c rest ih =>
    by_cases hc : c = '\n'
    · subst hc
      rw [calmFrom, lines, if_pos rfl, if_pos rfl, ih]
      have hbreak : isMetadata ['\n'] = false := by decide
      cases lines rest with
      | nil => simp [hbreak]
      | cons line others => simp [hbreak]
    · have hempty : isMetadata [] = false := by decide
      rw [calmFrom, if_neg hc, lines_cons hc, List.head?_cons, List.tail_cons]
      simp only [Option.mem_some_iff, forall_eq', isMetadata_cons]
      cases fresh with
      | false => simp [ih]
      | true =>
        by_cases hblank : isBlank c
        · rw [if_pos rfl, if_pos hblank, if_pos hblank, ih]
          cases lines rest with
          | nil => simp [hempty]
          | cons line others => simp
        · by_cases hmark : c = '!'
          · rw [if_pos rfl, if_neg hblank, if_neg hblank, if_pos hmark]
            simp [hmark]
          · rw [if_pos rfl, if_neg hblank, if_neg hblank, if_neg hmark, ih]
            simp [hmark]

/-- Blanking leaves a calm text as it is. -/
theorem blankMetadata_of_calm {text : List Char} (h : Calm text) : blankMetadata text = text := by
  obtain ⟨hfirst, hothers⟩ := (calmFrom_iff true text).mp h
  have hall : ∀ line ∈ lines text, isMetadata line = false := by
    intro line hline
    cases hlines : lines text with
    | nil => exact absurd hline (by simp [hlines])
    | cons first others =>
      rw [hlines] at hline hfirst hothers
      rcases List.mem_cons.mp hline with rfl | hline
      · exact hfirst rfl _ rfl
      · exact hothers line hline
  have hsame : ∀ line ∈ lines text,
      (if isMetadata line then line.map blankChar else line) = line := by
    intro line hline
    rw [hall line hline, if_neg Bool.false_ne_true]
  rw [blankMetadata, List.flatMap_def, List.map_congr_left hsame, List.map_id',
    flatten_lines]

/-- Each line is a row without line breaks, and a line break in all lines but the last. -/
theorem exists_body_of_mem_lines {text line : List Char} (h : line ∈ lines text) :
    ∃ body, '\n' ∉ body ∧ (line = body ∨ line = body ++ ['\n']) := by
  induction text generalizing line with
  | nil => exact absurd h List.not_mem_nil
  | cons c rest ih =>
    by_cases hc : c = '\n'
    · rw [lines, if_pos hc] at h
      rcases List.mem_cons.mp h with rfl | h
      · exact ⟨[], List.not_mem_nil, Or.inr (by rw [hc, List.nil_append])⟩
      · exact ih h
    · rw [lines_cons hc] at h
      rcases List.mem_cons.mp h with rfl | h
      · cases hlines : lines rest with
        | nil => exact ⟨[c], by simpa using Ne.symm hc, Or.inl rfl⟩
        | cons first others =>
          obtain ⟨body, hbody, hfirst⟩ := ih (hlines ▸ List.mem_cons_self)
          refine ⟨c :: body, ?_, ?_⟩
          · rw [List.mem_cons, not_or]
            exact ⟨Ne.symm hc, hbody⟩
          · rcases hfirst with rfl | rfl
            · exact Or.inl rfl
            · exact Or.inr rfl
      · exact ih (List.mem_of_mem_tail h)

theorem isMetadata_append_newline (body : List Char) :
    isMetadata (body ++ ['\n']) = isMetadata body := by
  induction body with
  | nil => decide
  | cons c rest ih => rw [List.cons_append, isMetadata_cons, isMetadata_cons, ih]

theorem calm_of_isMetadata_eq_false {body : List Char} (hbody : '\n' ∉ body)
    (h : isMetadata body = false) : Calm body := by
  induction body with
  | nil => rfl
  | cons c rest ih =>
    rw [List.mem_cons, not_or] at hbody
    rw [isMetadata_cons] at h
    by_cases hblank : isBlank c
    · rw [if_pos hblank] at h
      rw [Calm, calmFrom, if_neg (Ne.symm hbody.1), if_pos rfl, if_pos hblank]
      exact ih hbody.2 h
    · rw [if_neg hblank, decide_eq_false_iff_not] at h
      exact calm_cons (by simpa using hblank) h (calmFrom_false_of_not_mem hbody.2)

/-- Blanking makes every text calm. -/
theorem calm_blankMetadata (text : List Char) : Calm (blankMetadata text) := by
  have hline : ∀ line ∈ lines text,
      Calm (if isMetadata line then line.map blankChar else line) := by
    intro line hline
    by_cases hmeta : isMetadata line
    · rw [if_pos hmeta]
      refine calm_of_not_mem ?_
      intro hmem
      obtain ⟨c, -, hc⟩ := List.mem_map.mp hmem
      rw [blankChar] at hc
      split at hc
      case isTrue hbreak =>
        subst hc
        exact absurd hbreak (by decide)
      case isFalse => exact absurd hc (by decide)
    · rw [if_neg hmeta]
      rw [Bool.not_eq_true] at hmeta
      obtain ⟨body, hbody, rfl | rfl⟩ := exists_body_of_mem_lines hline
      · exact calm_of_isMetadata_eq_false hbody hmeta
      · rw [isMetadata_append_newline] at hmeta
        exact (calm_of_isMetadata_eq_false hbody hmeta).append rfl
  rw [blankMetadata]
  revert hline
  induction lines text with
  | nil =>
    intro _
    rfl
  | cons line others ih =>
    intro hline
    rw [List.flatMap_cons]
    exact (hline line List.mem_cons_self).append
      (ih fun l hl => hline l (List.mem_cons_of_mem line hl))

end QuantumIR.Source
