import QuantumIR.Proofs.Bounded.Total
import QuantumIR.Proofs.Source.FirstLine

/-!
The layout of a text does not matter. What the tokens spell is an outline that depends on them
alone. Of the text between tokens only two things are seen later: the first line, which gives the
module its name, and what stands from one token of an attribute group to another.
-/

namespace QuantumIR.Bounded

open Text

/-- What some tokens spell, whatever text they stand in. -/
def outline? (tokens : List Token) : Option Outline :=
  match readOutline ⟨tokens, fun _ _ => true⟩ ⟨0, 2 * tokens.length + 1⟩ with
  | .ok (outline, _) => some outline
  | .error _ => none

/-- The attribute groups that some tokens spell. -/
def groups (tokens : List Token) : List Group :=
  ((outline? tokens).map Outline.groups).getD []

/-- The tokens of a text. A piece that is no token gives nothing. -/
def tokens (text : List Char) : List Token :=
  (Lexeme.scan text).filterMap Lexeme.token?

/-- What stands in a text from the start of one piece to the end of another. -/
def part (text : List Char) (first last : Nat) : String :=
  let spans := (Lexeme.scan text).map Lexeme.span
  Source.slice text ⟨(spans[first]?.map Span.start).getD 0, (spans[last]?.map Span.stop).getD 0⟩

/-- Two texts do not differ between the braces of a group. -/
def SameWithin (text text' : List Char) (group : Group) : Prop :=
  ∀ last ≤ group.last, ∀ first ≤ last, group.first ≤ first →
    part text first last = part text' first last

/-- The module that a text spells is the outline of its tokens as it is written there. -/
theorem toOption_readText {text : List Char} {placed : List PlacedToken}
    (h : Module.placeTokens (Lexeme.scan text) = .ok placed) :
    (Module.readText text).toOption =
      (outline? (placed.map PlacedToken.token)).map (Outline.written text placed) ∧
    ∀ outline, outline? (placed.map PlacedToken.token) = some outline → outline.Encloses := by
  have hagree := follows_wholeRow (freePage placed) text 0
  unfold Follows at hagree
  rw [readText_eq, h, outline?, List.length_map]
  change (Except.bind (readTokens text ⟨placed, 0⟩) fun p => .ok p.1).toOption = _ ∧ _
  change Agree (freePage placed) _ _ (readTokens text ⟨placed, 0⟩)
    (readOutline ⟨placed.map PlacedToken.token, fun _ _ => true⟩ ⟨0, 2 * placed.length + 1⟩) at hagree
  generalize readTokens text _ = outcome, readOutline _ _ = outcome' at hagree ⊢
  cases hagree with
  | fault place cause _ => exact ⟨rfl, fun _ hnone => absurd hnone (Option.some_ne_none _).symm⟩
  | gives _ _ hsame =>
    obtain ⟨rfl, hencloses⟩ := hsame
    refine ⟨rfl, ?_⟩
    rintro outline hsome
    exact Option.some.inj hsome ▸ hencloses

/-- What is read does not depend on how an error tells its place. -/
theorem toOption_parse (source : String) : (Module.parse source).toOption =
    (Module.readText (Source.blankMetadata source.toList)).toOption := by
  rw [Module.parse]
  cases Module.readText (Source.blankMetadata source.toList) <;> rfl

theorem toOption_readText_invalid {text : List Char} {fault : Fault}
    (h : Module.placeTokens (Lexeme.scan text) = .error fault) :
    (Module.readText text).toOption = none := by
  rw [readText_eq, h]
  rfl

/-- Pieces that are all tokens or not all tokens. -/
theorem placeTokens_cases (lexemes : List Lexeme) :
    (∃ placed, Module.placeTokens lexemes = .ok placed ∧
      lexemes.map Lexeme.token? = placed.map fun token => some token.token) ∨
    ∃ fault, Module.placeTokens lexemes = .error fault ∧ none ∈ lexemes.map Lexeme.token? := by
  cases h : Module.placeTokens lexemes with
  | ok placed =>
    left
    refine ⟨placed, rfl, ?_⟩
    rw [Lexeme.eq_map_of_placeTokens h, List.map_map]
    rfl
  | error fault =>
    right
    rcases collect_eq 0 lexemes with ⟨placed, hplaced, -⟩ | ⟨piece, span, hmem, -⟩
    · rw [h] at hplaced
      cases hplaced
    · exact ⟨fault, rfl, List.mem_map.mpr ⟨_, hmem, rfl⟩⟩

/-- An attribute of a group is the same in two texts that do not differ between its tokens. -/
theorem attribute_eq {text text' : List Char} {placed placed' : List PlacedToken} {group : Group}
    {entry : Entry} (htext : Lexeme.scan text = placed.map Lexeme.ofPlaced)
    (htext' : Lexeme.scan text' = placed'.map Lexeme.ofPlaced)
    (hentry : entry.Between group.first (group.last + 1)) (h : SameWithin text text' group) :
    entry.attribute text placed = entry.attribute text' placed' := by
  cases entry with
  | quoted attr => rfl
  | keyword first last =>
    have hpart := h last (Nat.lt_succ_iff.mp hentry.2.2) first hentry.2.1 hentry.1
    rw [part, part, htext, htext'] at hpart
    simp only [List.map_map, List.getElem?_map, Option.map_map] at hpart
    exact congrArg Attribute.keyword hpart

/-- An outline is the same module in two texts with the same first line that do not differ inside
attribute groups. -/
theorem written_eq {text text' : List Char} {placed placed' : List PlacedToken} {outline : Outline}
    (hline : text.takeWhile (· ≠ '\n') = text'.takeWhile (· ≠ '\n'))
    (htext : Lexeme.scan text = placed.map Lexeme.ofPlaced)
    (htext' : Lexeme.scan text' = placed'.map Lexeme.ofPlaced) (hencloses : outline.Encloses)
    (hgroups : ∀ group ∈ outline.groups, SameWithin text text' group) :
    outline.written text placed = outline.written text' placed' := by
  have hname : Source.moduleName text = Source.moduleName text' := by
    rw [Source.moduleName, Source.moduleName, hline]
  rw [Outline.written, Outline.written, hname]
  congr 1
  apply List.map_congr_left
  intro entry hentry
  rw [writtenFunction, writtenFunction]
  congr 2
  apply List.map_congr_left
  intro attr hattr
  obtain ⟨group, hgroup, hbetween⟩ := hencloses entry hentry attr hattr
  exact attribute_eq htext htext' hbetween (hgroups group hgroup)

/-- Two texts are read alike, or neither is, if they have the same first line and the same tokens
and do not differ inside attribute groups. -/
theorem toOption_readText_eq {text text' : List Char}
    (hline : text.takeWhile (· ≠ '\n') = text'.takeWhile (· ≠ '\n'))
    (htokens : (Lexeme.scan text).map Lexeme.token? = (Lexeme.scan text').map Lexeme.token?)
    (hgroups : ∀ group ∈ groups (tokens text), SameWithin text text' group) :
    (Module.readText text).toOption = (Module.readText text').toOption := by
  rcases placeTokens_cases (Lexeme.scan text) with
      ⟨placed, hplaced, hsome⟩ | ⟨fault, hfault, hnone⟩ <;>
    rcases placeTokens_cases (Lexeme.scan text') with
      ⟨placed', hplaced', hsome'⟩ | ⟨fault', hfault', hnone'⟩
  · have hscan := Lexeme.eq_map_of_placeTokens hplaced
    have hscan' := Lexeme.eq_map_of_placeTokens hplaced'
    have hrow : placed.map PlacedToken.token = placed'.map PlacedToken.token := by
      apply List.map_injective_iff.mpr (Option.some_injective Token)
      rw [List.map_map, List.map_map]
      exact hsome.symm.trans (htokens.trans hsome')
    have hown : tokens text = placed.map PlacedToken.token := by
      rw [tokens, hscan, List.filterMap_map]
      exact congrFun List.filterMap_eq_map placed
    obtain ⟨hread, hencloses⟩ := toOption_readText hplaced
    obtain ⟨hread', -⟩ := toOption_readText hplaced'
    rw [hread, hread', ← hrow]
    cases houtline : outline? (placed.map PlacedToken.token) with
    | none => rfl
    | some outline =>
      rw [groups, hown, houtline] at hgroups
      exact congrArg some
        (written_eq hline hscan hscan' (hencloses outline houtline) hgroups)
  · rw [← htokens, hsome] at hnone'
    simp at hnone'
  · rw [htokens, hsome'] at hnone
    simp at hnone
  · rw [toOption_readText_invalid hfault, toOption_readText_invalid hfault']

/-- Layout between tokens is irrelevant: two texts with the same first line and the same tokens that
do not differ inside attribute groups are both accepted or both refused, and spell the same module
if they are accepted. Their tokens are those that are left when lines that start with an exclamation
mark are blanked out, wherever these lines stand. If there are no such lines, they are all tokens. -/
theorem parse_layout {source source' : String}
    (hline : source.toList.takeWhile (· ≠ '\n') = source'.toList.takeWhile (· ≠ '\n'))
    (htokens : (Lexeme.scan (Source.blankMetadata source.toList)).map Lexeme.token? =
      (Lexeme.scan (Source.blankMetadata source'.toList)).map Lexeme.token?)
    (hgroups : ∀ group ∈ groups (tokens (Source.blankMetadata source.toList)),
      SameWithin (Source.blankMetadata source.toList) (Source.blankMetadata source'.toList) group) :
    (Module.parse source).toOption = (Module.parse source').toOption := by
  rw [toOption_parse, toOption_parse]
  refine toOption_readText_eq ?_ htokens hgroups
  rw [Source.takeWhile_blankMetadata, Source.takeWhile_blankMetadata, hline]

/-- A function with a group of attributes. -/
def grouped : String :=
  "; ModuleID = 'm'\ndefine void @f() #0 \x7b\n  ret void\n\x7d\n" ++
  "attributes #0 = \x7b align=4 \"k\" \x7d\n"

/-- The same in other lines, with comments, and the same inside the group. -/
def regrouped : String :=
  "; ModuleID = 'm'\ndefine void\n@f()#0\x7bret ; no value\nvoid\x7d;\n\n" ++
  "attributes\n#0=\x7b align=4 \"k\" \x7d"

set_option maxRecDepth 100000 in
/-- Both layouts spell one module. -/
theorem parse_grouped : (Module.parse grouped).toOption = (Module.parse regrouped).toOption ∧
    (Module.parse grouped).toOption.isSome :=
  ⟨parse_layout (by decide +kernel) (by decide +kernel) (by unfold SameWithin; decide +kernel),
    by decide +kernel⟩

/-- A call with a metadata attachment. -/
def attached : String :=
  "define void @f() \x7b\n  call void @g(), !dbg !4\n  ret void\n\x7d\ndeclare void @g()\n"

/-- The same with the attachment on a line of its own. -/
def wrapped : String :=
  "define void @f() \x7b\n  call void @g(),\n    !dbg !4\n  ret void\n\x7d\ndeclare void @g()\n"

set_option maxRecDepth 100000 in
/-- An attachment that starts a line inside a function is blanked out as if it defined metadata at
the top level: two texts with the same first line and the same tokens, without attribute groups and
without metadata definitions, are not both refused or both accepted. -/
theorem parse_wrapped :
    attached.toList.takeWhile (· ≠ '\n') = wrapped.toList.takeWhile (· ≠ '\n') ∧
    (Lexeme.scan attached.toList).map Lexeme.token? =
      (Lexeme.scan wrapped.toList).map Lexeme.token? ∧
    (∀ piece ∈ (Lexeme.scan attached.toList).map Lexeme.token?,
      piece ≠ none ∧ piece ≠ some (.keyword .attributes)) ∧
    (Module.parse attached).toOption.isSome ∧ (Module.parse wrapped).toOption = none := by
  decide +kernel

end QuantumIR.Bounded
