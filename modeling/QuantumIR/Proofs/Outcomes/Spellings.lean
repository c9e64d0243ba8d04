import Mathlib
import QuantumIR.Outcomes
import QuantumIR.Proofs.Verified.Rules

/-!
The spellings of outcomes. A list of outcomes is written as a row of bits, or as items between
commas: an item is a word in any letter case or a bit, with any white space around it. Each spelling
is read as the outcomes that it stands for, and nothing else is read.
-/

namespace QuantumIR

namespace Text

variable {before after text : List Char}

/-- Blanks at the start of a text do not matter once it is trimmed. -/
theorem trim_append_left (h : ∀ c ∈ before, isBlank c) (text : List Char) :
    trim (before ++ text) = trim text := by
  rw [trim, trimStart, List.dropWhile_append_of_pos h]
  rfl

/-- Nor do blanks at its end. -/
theorem trim_append_right (h : ∀ c ∈ after, isBlank c) (text : List Char) :
    trim (text ++ after) = trim text := by
  have hend : ∀ row, trimEnd (row ++ after) = trimEnd row := by
    intro row
    rw [trimEnd, trimEnd, List.reverse_append, List.dropWhile_append_of_pos (by simpa using h)]
  have hnone : after.dropWhile isBlank = [] := List.dropWhile_eq_nil_iff.mpr h
  rw [trim, trim, trimStart, trimStart, List.dropWhile_append, hnone]
  split
  · next hempty =>
    rw [List.isEmpty_iff.mp hempty]
  · exact hend _

/-- A text is what is left when it is trimmed, with blanks around it. -/
theorem exists_trim (text : List Char) : ∃ before after, (∀ c ∈ before, isBlank c) ∧
    (∀ c ∈ after, isBlank c) ∧ text = before ++ trim text ++ after := by
  refine ⟨text.takeWhile isBlank, ((trimStart text).reverse.takeWhile isBlank).reverse,
    fun c hc => List.mem_takeWhile_imp hc,
    fun c hc => List.mem_takeWhile_imp (List.mem_reverse.mp hc), ?_⟩
  have hend : trim text ++ ((trimStart text).reverse.takeWhile isBlank).reverse =
      trimStart text := by
    rw [trim, trimEnd, ← List.reverse_append, List.takeWhile_append_dropWhile,
      List.reverse_reverse]
  rw [List.append_assoc, hend, trimStart, List.takeWhile_append_dropWhile]

theorem trim_trim (text : List Char) : trim (trim text) = trim text := by
  obtain ⟨before, after, hbefore, hafter, heq⟩ := exists_trim text
  conv_rhs => rw [heq, trim_append_right hafter, trim_append_left hbefore]

/-- A text without blanks stays as it is. -/
theorem trim_eq_self (h : ∀ c ∈ text, isBlank c = false) : trim text = text := by
  obtain ⟨before, after, hbefore, hafter, heq⟩ := exists_trim text
  have hnone : ∀ row : List Char, (∀ c ∈ row, isBlank c) → (∀ c ∈ row, c ∈ text) → row = [] := by
    intro row hblank hmem
    rw [List.eq_nil_iff_forall_not_mem]
    intro c hc
    have hfalse := h c (hmem c hc)
    rw [hblank c hc] at hfalse
    cases hfalse
  have hfirst := hnone before hbefore fun c hc => by rw [heq]; simp [hc]
  have hlast := hnone after hafter fun c hc => by rw [heq]; simp [hc]
  rw [hfirst, hlast, List.nil_append, List.append_nil] at heq
  exact heq.symm

/-- Trimming takes away blanks only. -/
theorem mem_trim {c : Char} (hc : c ∈ text) (hblank : isBlank c = false) : c ∈ trim text := by
  obtain ⟨before, after, hbefore, hafter, heq⟩ := exists_trim text
  have hnot : ∀ row : List Char, (∀ c ∈ row, isBlank c) → c ∉ row := by
    intro row hrow hmem
    rw [hrow c hmem] at hblank
    cases hblank
  rw [heq, List.mem_append, List.mem_append] at hc
  rcases hc with (hc | hc) | hc
  · exact absurd hc (hnot before hbefore)
  · exact hc
  · exact absurd hc (hnot after hafter)

end Text

namespace Outcomes

open Text

variable {value : Bool} {values : List Bool} {text item : List Char}

/-- The bit that stands for an outcome. -/
def bit (value : Bool) : Char := if value then '1' else '0'

/-- The word that stands for an outcome, in small letters. -/
def word (value : Bool) : List Char :=
  if value then ['t', 'r', 'u', 'e'] else ['f', 'a', 'l', 's', 'e']

/-- A word in any letter case: each of its letters is written small or as a capital. -/
def AnyCase (word text : List Char) : Prop :=
  List.Forall₂ (fun letter c => c = letter ∨ c = letter.toUpper) word text

/-- A name of an outcome: its bit, or its word in any letter case. -/
def Names (value : Bool) (text : List Char) : Prop :=
  text = [bit value] ∨ AnyCase (word value) text

/-- A name of an outcome with white space around it. -/
def IsItem (value : Bool) (text : List Char) : Prop :=
  ∃ before name after, (∀ c ∈ before, isBlank c) ∧ (∀ c ∈ after, isBlank c) ∧ Names value name ∧
    text = before ++ name ++ after

/-- What stands for a list of outcomes: a row of bits, or items between commas. One item stands
without a comma, and the empty text stands for no outcomes. -/
inductive Spelled (values : List Bool) : List Char → Prop
  | bits : Spelled values (values.map bit)
  | items {items : List (List Char)} :
      List.Forall₂ IsItem values items → Spelled values ([','].intercalate items)

/-! ### Words in any letter case -/

/-- What a small letter is the small form of. -/
theorem toLower_eq_iff {letter : Char} (h : 'a' ≤ letter ∧ letter ≤ 'z') (c : Char) :
    c.toLower = letter ↔ c = letter ∨ c = letter.toUpper := by
  have hsmall : 'a'.val.toNat = 97 ∧ 'z'.val.toNat = 122 := ⟨rfl, rfl⟩
  have hcapital : 'A'.val.toNat = 65 ∧ 'Z'.val.toNat = 90 := ⟨rfl, rfl⟩
  simp only [Char.le_def, UInt32.le_iff_toNat_le] at h
  simp only [Char.toLower, Char.toUpper, ge_iff_le, UInt32.le_iff_toNat_le, Char.ext_iff,
    apply_dite Char.val, ← UInt32.toNat_inj, apply_dite UInt32.toNat, UInt32.toNat_add,
    UInt32.toNat_sub]
  split_ifs <;> omega

theorem map_toLower_eq_iff {letters : List Char}
    (h : ∀ letter ∈ letters, 'a' ≤ letter ∧ letter ≤ 'z') (text : List Char) :
    text.map Char.toLower = letters ↔ AnyCase letters text := by
  induction letters generalizing text with
  | nil => simp [AnyCase]
  | cons letter letters ih =>
    obtain ⟨hletter, hletters⟩ := List.forall_mem_cons.mp h
    cases text with
    | nil => simp [AnyCase]
    | cons c rest =>
      have hrest := ih hletters rest
      rw [AnyCase] at hrest ⊢
      rw [List.map_cons, List.cons.injEq, toLower_eq_iff hletter, hrest, List.forall₂_cons]

/-- The letters of words are small. -/
theorem small_word (value : Bool) : ∀ letter ∈ word value, 'a' ≤ letter ∧ letter ≤ 'z' := by
  cases value <;> simp [word]

theorem ofWord?_eq_some_iff : ofWord? text = some value ↔ AnyCase (word value) text := by
  have htrue : ∀ letters, String.ofList letters = "true" ↔ letters = word true := by
    intro letters
    rw [← String.toList_inj, String.toList_ofList]
    rfl
  have hfalse : ∀ letters, String.ofList letters = "false" ↔ letters = word false := by
    intro letters
    rw [← String.toList_inj, String.toList_ofList]
    rfl
  rw [← map_toLower_eq_iff (small_word value), ofWord?]
  split
  · next h =>
    rw [(htrue _).mp h]
    cases value <;> decide
  · next h =>
    rw [(hfalse _).mp h]
    cases value <;> decide
  · next hnot hnot' =>
    cases value with
    | true => exact iff_of_false (by simp) fun h => hnot ((htrue _).mpr h)
    | false => exact iff_of_false (by simp) fun h => hnot' ((hfalse _).mpr h)

/-! ### Items -/

/-- The words and bits contain neither blanks nor commas. -/
theorem not_blank_of_names (h : Names value text) : ∀ c ∈ text, isBlank c = false ∧ c ≠ ',' := by
  rcases h with rfl | h
  · rw [List.forall_mem_singleton]
    cases value <;> decide
  · have hletters : ∀ letter ∈ word value, ∀ c, c = letter ∨ c = letter.toUpper →
        isBlank c = false ∧ c ≠ ',' := by
      cases value <;> simp [word] <;> decide
    generalize word value = letters at h hletters
    induction h with
    | nil => exact fun c hc => absurd hc List.not_mem_nil
    | cons hfirst hrest ih =>
      obtain ⟨hletter, hletters⟩ := List.forall_mem_cons.mp hletters
      exact List.forall_mem_cons.mpr ⟨hletter _ hfirst, ih hletters⟩

/-- An item is a name once it is trimmed. -/
theorem isItem_iff : IsItem value item ↔ Names value (trim item) := by
  constructor
  · rintro ⟨before, name, after, hbefore, hafter, hname, rfl⟩
    rw [trim_append_right hafter, trim_append_left hbefore,
      trim_eq_self fun c hc => (not_blank_of_names hname c hc).1]
    exact hname
  · intro h
    obtain ⟨before, after, hbefore, hafter, heq⟩ := exists_trim item
    exact ⟨before, trim item, after, hbefore, hafter, h, heq⟩

/-- Words have more than one letter, so they are not bits. -/
theorem ne_singleton_of_anyCase (h : AnyCase (word value) text) (c : Char) : text ≠ [c] := by
  rintro rfl
  have hlength := h.length_eq
  cases value <;> cases hlength

theorem readItem_eq_ok_iff : readItem item = .ok value ↔ IsItem value item := by
  rw [isItem_iff, readItem]
  constructor
  · intro h
    split at h
    · next hone =>
      cases h
      exact Or.inl hone
    · split at h
      · next hzero =>
        cases h
        exact Or.inl hzero
      · split at h
        · next hword =>
          cases h
          exact Or.inr (ofWord?_eq_some_iff.mp hword)
        · cases h
  · rintro (hbit | hword)
    · rw [hbit]
      cases value <;> rfl
    · rw [if_neg (ne_singleton_of_anyCase hword _), if_neg (ne_singleton_of_anyCase hword _),
        ofWord?_eq_some_iff.mpr hword]

theorem readItem_trim (item : List Char) : readItem (trim item) = readItem item := by
  rw [readItem, readItem, trim_trim]

theorem not_comma_of_isItem (h : IsItem value item) : ',' ∉ item := by
  obtain ⟨before, name, after, hbefore, hafter, hname, rfl⟩ := h
  have hnot : ∀ row : List Char, (∀ c ∈ row, isBlank c) → ',' ∉ row :=
    fun row hrow hmem => absurd (hrow _ hmem) (by decide)
  have hname' : ',' ∉ name := fun hmem => (not_blank_of_names hname _ hmem).2 rfl
  simp [hnot before hbefore, hnot after hafter, hname']

theorem not_comma_of_items {items : List (List Char)} (h : List.Forall₂ IsItem values items) :
    ∀ item ∈ items, ',' ∉ item := by
  induction h with
  | nil => exact fun item hitem => absurd hitem List.not_mem_nil
  | cons hfirst _ ih => exact List.forall_mem_cons.mpr ⟨not_comma_of_isItem hfirst, ih⟩

/-! ### Items between commas -/

theorem splitCommas_eq (text : List Char) : splitCommas text = text.splitOn ',' := by
  induction text with
  | nil => rfl
  | cons c rest ih =>
    rw [splitCommas, List.splitOn_cons_eq_if_modifyHead, ← ih]
    by_cases hc : c = ','
    · simp [hc]
    · rw [if_neg hc, if_neg (by simpa using hc)]
      cases hpieces : splitCommas rest with
      | nil => exact absurd (ih.symm.trans hpieces) (List.splitOn_ne_nil ',' rest)
      | cons piece pieces => rfl

/-- Blanks around a list do not matter once its pieces are trimmed. -/
theorem map_trim_splitOn_append_left {before : List Char} (h : ∀ c ∈ before, isBlank c)
    (text : List Char) :
    ((before ++ text).splitOn ',').map trim = (text.splitOn ',').map trim := by
  have hcomma : ',' ∉ before := fun hmem => absurd (h _ hmem) (by decide)
  by_cases htext : ',' ∈ text
  · obtain ⟨first, rest, rfl, hfirst⟩ := List.eq_append_cons_of_mem htext
    have hboth : ',' ∉ before ++ first := by simp [hcomma, hfirst]
    rw [← List.append_assoc, List.splitOn_append_cons_self, List.splitOn_append_cons_self,
      List.splitOn_eq_singleton hboth, List.splitOn_eq_singleton hfirst, List.map_append,
      List.map_append, List.map_singleton, trim_append_left h, List.map_singleton]
  · have hboth : ',' ∉ before ++ text := by simp [hcomma, htext]
    rw [List.splitOn_eq_singleton hboth, List.splitOn_eq_singleton htext, List.map_singleton,
      trim_append_left h, List.map_singleton]

theorem map_trim_splitOn_append_right {after : List Char} (h : ∀ c ∈ after, isBlank c)
    (text : List Char) :
    ((text ++ after).splitOn ',').map trim = (text.splitOn ',').map trim := by
  have hcomma : ',' ∉ after := fun hmem => absurd (h _ hmem) (by decide)
  induction hlength : text.length using Nat.strong_induction_on generalizing text with
  | _ length ih =>
    by_cases htext : ',' ∈ text
    · obtain ⟨first, rest, rfl, -⟩ := List.eq_append_cons_of_mem htext
      have hshorter : rest.length < length := by
        rw [List.length_append, List.length_cons] at hlength
        omega
      rw [List.append_assoc, List.cons_append, List.splitOn_append_cons_self,
        List.splitOn_append_cons_self, List.map_append, List.map_append, ih _ hshorter rest rfl]
    · have hboth : ',' ∉ text ++ after := by simp [hcomma, htext]
      rw [List.splitOn_eq_singleton hboth, List.splitOn_eq_singleton htext, List.map_singleton,
        trim_append_right h, List.map_singleton]

/-- What the items of a list are read as does not change with the blanks around the list. -/
theorem mapM_splitCommas_trim (text : List Char) :
    (splitCommas (trim text)).mapM readItem = (splitCommas text).mapM readItem := by
  obtain ⟨before, after, hbefore, hafter, heq⟩ := exists_trim text
  have hpieces : ((trim text).splitOn ',').map trim = (text.splitOn ',').map trim := by
    conv_rhs =>
      rw [heq, map_trim_splitOn_append_right hafter, map_trim_splitOn_append_left hbefore]
  have htrim : ∀ pieces : List (List Char),
      (pieces.map trim).mapM readItem = pieces.mapM readItem := by
    intro pieces
    rw [List.mapM_map]
    exact congrArg (pieces.mapM ·) (funext readItem_trim)
  rw [splitCommas_eq, splitCommas_eq, ← htrim, hpieces, htrim]

/-- A list is read as the outcomes that its items stand for. -/
theorem mapM_splitCommas_eq_ok_iff : (splitCommas text).mapM readItem = .ok values ↔
    ∃ items ≠ [], List.Forall₂ IsItem values items ∧ text = [','].intercalate items := by
  have hread : ∀ items, items.mapM readItem = .ok values ↔ List.Forall₂ IsItem values items := by
    intro items
    rw [Verification.mapM_eq_ok]
    simp only [readItem_eq_ok_iff]
    exact ⟨.flip, .flip⟩
  rw [splitCommas_eq, hread]
  constructor
  · intro h
    exact ⟨text.splitOn ',', List.splitOn_ne_nil ',' text, h, (List.intercalate_splitOn ',').symm⟩
  · rintro ⟨items, hne, h, rfl⟩
    rwa [List.splitOn_intercalate ',' (not_comma_of_items h) hne]

/-! ### Texts without commas -/

theorem mapM_readBit_eq_ok_iff : text.mapM readBit = .ok values ↔ text = values.map bit := by
  have hbit : ∀ c value, readBit c = .ok value ↔ c = bit value := by
    intro c value
    rw [readBit, bit]
    split_ifs <;> cases value <;> simp_all
  rw [Verification.mapM_eq_ok, ← List.forall₂_eq_eq_eq, List.forall₂_map_right_iff]
  simp only [hbit]

/-- A row of bits is not a word. -/
theorem not_anyCase_bits (values : List Bool) : ¬ AnyCase (word value) (values.map bit) := by
  cases values with
  | nil =>
    intro h
    cases value <;> cases h
  | cons first rest =>
    intro h
    cases value <;> cases h <;> cases first <;> simp_all [bit]

/-! ### Whole texts -/

/-- What a text without commas is read as. -/
theorem read_of_not_comma {text : String} (hcomma : ',' ∉ trim text.toList) :
    read text = .ok values ↔ trim text.toList = values.map bit ∨
      ∃ value, values = [value] ∧ AnyCase (word value) (trim text.toList) := by
  rw [read, if_neg hcomma]
  generalize trim text.toList = row
  cases hword : ofWord? row with
  | some value =>
    have hcase := ofWord?_eq_some_iff.mp hword
    constructor
    · intro h
      cases h
      exact Or.inr ⟨value, rfl, hcase⟩
    · rintro (rfl | ⟨other, rfl, hother⟩)
      · exact absurd hcase (not_anyCase_bits values)
      · rw [ofWord?_eq_some_iff.mpr hother] at hword
        cases hword
        rfl
  | none =>
    have hnot : ∀ value, ¬ AnyCase (word value) row := by
      intro value h
      rw [ofWord?_eq_some_iff.mpr h] at hword
      cases hword
    rw [mapM_readBit_eq_ok_iff]
    constructor
    · exact Or.inl
    · rintro (h | ⟨value, -, h⟩)
      · exact h
      · exact absurd h (hnot value)

/-- A text with commas is spelled as a list. -/
theorem spelled_iff_of_comma (hcomma : ',' ∈ text) :
    Spelled values text ↔ (splitCommas text).mapM readItem = .ok values := by
  rw [mapM_splitCommas_eq_ok_iff]
  constructor
  · intro h
    cases h with
    | bits =>
      obtain ⟨value, -, hvalue⟩ := List.mem_map.mp hcomma
      cases value <;> cases hvalue
    | @items items h =>
      refine ⟨items, ?_, h, rfl⟩
      rintro rfl
      cases hcomma
  · rintro ⟨items, -, h, rfl⟩
    exact .items h

/-- A text without commas is spelled as a row of bits, or as a single item. -/
theorem spelled_iff_of_not_comma (hcomma : ',' ∉ text) :
    Spelled values text ↔
      text = values.map bit ∨ ∃ value, values = [value] ∧ IsItem value text := by
  constructor
  · intro h
    cases h with
    | bits => exact Or.inl rfl
    | items h =>
      cases h with
      | nil => exact Or.inl rfl
      | @cons value item others rest hitem hrest =>
        cases hrest with
        | nil => exact Or.inr ⟨value, rfl, by simpa using hitem⟩
        | cons _ _ => simp [List.intercalate] at hcomma
  · rintro (rfl | ⟨value, rfl, h⟩)
    · exact .bits
    · simpa using Spelled.items (.cons h .nil)

theorem trim_bits (values : List Bool) : trim (values.map bit) = values.map bit := by
  refine trim_eq_self fun c hc => ?_
  obtain ⟨value, -, rfl⟩ := List.mem_map.mp hc
  cases value <;> decide

/-- What is spelled is still spelled once it is trimmed. -/
theorem Spelled.trim (h : Spelled values text) : Spelled values (trim text) := by
  by_cases hcomma : ',' ∈ text
  · rw [spelled_iff_of_comma hcomma] at h
    rwa [spelled_iff_of_comma (mem_trim hcomma (by decide)), mapM_splitCommas_trim]
  · rcases (spelled_iff_of_not_comma hcomma).mp h with rfl | ⟨value, rfl, hvalue⟩
    · rw [trim_bits]
      exact .bits
    · have hitem : IsItem value (Text.trim text) := by
        rw [isItem_iff, trim_trim]
        exact isItem_iff.mp hvalue
      simpa using Spelled.items (.cons hitem .nil)

/-- What is read is what is spelled between the blanks at either end. -/
theorem read_eq_ok_iff {text : String} :
    read text = .ok values ↔ Spelled values (trim text.toList) := by
  by_cases hcomma : ',' ∈ trim text.toList
  · rw [read, if_pos hcomma, spelled_iff_of_comma hcomma]
  · have hnames : ∀ value, IsItem value (trim text.toList) ↔ trim text.toList = [bit value] ∨
        AnyCase (word value) (trim text.toList) := by
      intro value
      rw [isItem_iff, trim_trim, Names]
    rw [read_of_not_comma hcomma, spelled_iff_of_not_comma hcomma]
    simp only [hnames]
    constructor
    · rintro (h | ⟨value, rfl, h⟩)
      · exact Or.inl h
      · exact Or.inr ⟨value, rfl, Or.inr h⟩
    · rintro (h | ⟨value, rfl, h | h⟩)
      · exact Or.inl h
      · exact Or.inl h
      · exact Or.inr ⟨value, rfl, h⟩

/-- Each spelling of a list of outcomes is read as that list, and nothing else is read: a text that
is read is a spelling of what it is read as once the blanks at its ends are gone. -/
theorem read_exact (text : String) (values : List Bool) :
    (Spelled values text.toList → read text = .ok values) ∧
    (read text = .ok values → Spelled values (trim text.toList)) :=
  ⟨fun h => read_eq_ok_iff.mpr h.trim, read_eq_ok_iff.mp⟩

/-- Words in capitals, bits and words in small letters stand side by side in a list. -/
theorem read_exact_mixed : Spelled [true, false, false] " TRUE ,0,\tfalse".toList ∧
    read " TRUE ,0,\tfalse" = .ok [true, false, false] ∧
    Spelled [true, false, false] (trim " TRUE ,0,\tfalse".toList) := by
  have hfirst : IsItem true " TRUE ".toList :=
    ⟨[' '], ['T', 'R', 'U', 'E'], [' '], by simp; decide, by simp; decide,
      .inr (by simp [AnyCase, word]), rfl⟩
  have hsecond : IsItem false ['0'] := ⟨[], ['0'], [], by simp, by simp, .inl rfl, rfl⟩
  have hthird : IsItem false "\tfalse".toList :=
    ⟨['\t'], word false, [], by simp; decide, by simp, .inr (by simp [AnyCase, word]), rfl⟩
  have hspelled : Spelled [true, false, false] " TRUE ,0,\tfalse".toList :=
    .items (.cons hfirst (.cons hsecond (.cons hthird .nil)))
  have hread := (read_exact " TRUE ,0,\tfalse" [true, false, false]).1 hspelled
  exact ⟨hspelled, hread, (read_exact " TRUE ,0,\tfalse" [true, false, false]).2 hread⟩

end Outcomes

end QuantumIR
