import QuantumIR.Proofs.Canonical.GroupTokens

/-!
The tokens of the canonical text as a whole. All of it is cut into tokens if and only if no
attribute group has a number past the 32-bit ones.
-/

namespace QuantumIR

open Lexeme Text

/-- The tokens of a global string. -/
def GlobalString.tokens (global : GlobalString) : List Token :=
  [.globalName global.name, .mark .equals, .word "internal", .keyword .constant,
    .mark .leftBracket, .integer (Int64.ofNat global.bytes.length), .keyword .x, .intType 8,
    .mark .rightBracket, .bytes global.bytes]

theorem GlobalString.spells {global : GlobalString} (h : global.bytes.length < UInt64.size) :
    Spells Closed global.line.toList (global.tokens.map some) := by
  have hinternal : Spells Closed "internal".toList [some (.word "internal")] :=
    Spells.plainWord rfl (Or.inl rfl) rfl rfl
  have hbyte : Spells Closed "i8".toList [some (.intType 8)] := Spells.intType 8
  have hbytes := hbyte.markThen ']' rfl rfl (Spells.blank.then (Spells.bytes global.bytes))
  have hlength := (Spells.natural h).blankThen ((Spells.keyword .x).blankThen hbytes)
  have hconstant := hinternal.blankThen
    ((Spells.keyword .constant).blankThen ((Spells.mark '[' rfl).then hlength))
  have hequals := (Spells.mark '=' rfl).then (Spells.blank.then hconstant)
  refine ((Spells.globalName global.name).blankThen hequals).weaken.cast ?_ rfl
  simp only [GlobalString.line, Keyword.text, String.toList_append, String.reduceToList,
    List.append_assoc, List.cons_append, List.nil_append]

namespace Module

/-- The tokens of an opaque type. -/
def opaqueTypeTokens (name : String) : List Token :=
  [.localName name, .mark .equals, .keyword .typeWord, .keyword .opaqueWord]

theorem spells_opaqueType (name : String) :
    Spells Closed (opaqueTypeLine name).toList ((opaqueTypeTokens name).map some) := by
  have htype := (Spells.keyword .typeWord).blankThen (Spells.keyword .opaqueWord)
  have hequals := (Spells.mark '=' rfl).then (Spells.blank.then htype)
  refine ((Spells.localName name).blankThen hequals).cast ?_ rfl
  simp only [opaqueTypeLine, Keyword.text, String.toList_append, String.reduceToList,
    List.cons_append, List.nil_append]

/-- The tokens of a file name. -/
def sourceTokens (source : String) : List Token :=
  [.keyword .sourceFilename, .mark .equals, .string source]

theorem spells_source (source : String) :
    Spells Closed ("source_filename = \"" ++ escapeText source ++ "\"").toList
      ((sourceTokens source).map some) := by
  have hequals := (Spells.mark '=' rfl).then (Spells.blank.then (Spells.string source))
  refine ((Spells.keyword .sourceFilename).blankThen hequals).cast ?_ rfl
  simp only [Keyword.text, String.toList_append, String.reduceToList, List.cons_append,
    List.nil_append]

/-- The first line is a comment. -/
theorem spells_header (name : String) :
    SpellsLines ["; ModuleID = '" ++ escapeText name ++ "'"] [] := by
  have hbody : '\n' ∉ (" ModuleID = '" ++ escapeText name ++ "'").toList := by
    rw [String.toList_append, String.toList_append, List.mem_append, List.mem_append]
    rintro ((h | h) | h)
    · exact absurd h (by decide)
    · exact newline_not_mem_escape _ h
    · exact absurd h (by decide)
  refine (Spells.comment hbody).cast ?_ rfl
  simp only [List.flatMap_singleton, String.toList_append, String.reduceToList, List.append_assoc,
    List.cons_append, List.nil_append]

/-- The lines of the canonical text before those of the attribute groups. -/
def frontLines (module : Module) : List String :=
  module.headerLines ++ paragraph (module.opaqueTypes.map opaqueTypeLine) ++
    paragraph (module.globals.map GlobalString.line) ++
    module.declarations.flatMap
      (fun function => paragraph (function.declarationLines module.attributeGroups)) ++
    module.definitions.flatMap
      (fun function => paragraph (function.definitionLines module.attributeGroups))

/-- The tokens of the canonical text before those of the attribute groups. -/
def frontTokens (module : Module) : List (Option Token) :=
  (module.source.toList.flatMap sourceTokens ++ module.opaqueTypes.flatMap opaqueTypeTokens ++
      module.globals.flatMap GlobalString.tokens).map some ++
    module.declarations.flatMap (Function.declarationTokens module.attributeGroups) ++
    module.definitions.flatMap (Function.definitionTokens module.attributeGroups)

theorem paragraph_cons (line : String) (lines : List String) :
    paragraph (line :: lines) = "" :: line :: lines := rfl

theorem lines_eq (module : Module) :
    module.lines =
      module.frontLines ++ paragraph (module.attributeGroups.zipIdx.map groupLine) := rfl

theorem toList_text (module : Module) :
    module.text.toList = module.lines.flatMap fun line => line.toList ++ ['\n'] := by
  rw [Module.text, String.toList_join, List.flatMap_map]
  congr 1
  funext line
  rw [String.toList_append]
  rfl

theorem spells_front {module : Module}
    (h : ∀ global ∈ module.globals, global.bytes.length < UInt64.size) :
    SpellsLines module.frontLines module.frontTokens := by
  have hsource : SpellsLines module.headerLines
      ((module.source.toList.flatMap sourceTokens).map some) := by
    refine ((spells_header module.name).append
      (SpellsLines.map module.source.toList fun s _ => spells_source s)).cast rfl ?_
    rw [List.map_flatMap]
    rfl
  have hopaque := SpellsLines.paragraph
    (SpellsLines.map module.opaqueTypes fun name _ => spells_opaqueType name)
  have hglobals := SpellsLines.paragraph
    (SpellsLines.map module.globals fun global hg => GlobalString.spells (h global hg))
  have hdeclarations := SpellsLines.flatMap module.declarations fun function _ =>
    (function.spells_declaration module.attributeGroups).paragraph
  have hdefinitions := SpellsLines.flatMap module.definitions fun function _ =>
    (function.spells_definition module.attributeGroups).paragraph
  refine ((((hsource.append hopaque).append hglobals).append hdeclarations).append
    hdefinitions).cast rfl ?_
  simp only [frontTokens, List.map_append, List.map_flatMap]

/-- The text is cut into the tokens of its lines. -/
theorem spells_text {module : Module}
    (hglobals : ∀ global ∈ module.globals, global.bytes.length < UInt64.size)
    (hattributes : ∀ entry ∈ module.attributeGroups, ∀ a ∈ entry,
      Spells Closed a.text.toList (a.tokens.map some)) :
    Spells Anything module.text.toList
      (module.frontTokens ++ module.attributeGroups.zipIdx.flatMap groupLineTokens) := by
  have hgroups := SpellsLines.paragraph (SpellsLines.map module.attributeGroups.zipIdx
    fun entry he => (spells_groupLine (hattributes entry.1 (List.fst_mem_of_mem_zipIdx he))).weaken)
  rw [toList_text, lines_eq]
  exact (spells_front hglobals).append hgroups

/-- With few groups, all of the text is cut into tokens, and the attributes stand where they are
written. -/
theorem exists_placed_scan {module : Module}
    (hglobals : ∀ global ∈ module.globals, global.bytes.length < UInt64.size)
    (hattributes : ∀ entry ∈ module.attributeGroups, ∀ a ∈ entry,
      Spells Closed a.text.toList (a.tokens.map some))
    (hcount : module.attributeGroups.length ≤ UInt32.size) {front : List Token}
    (hfront : module.frontTokens = front.map some) :
    ∃ placed groups, scan module.text.toList = (placed ++ groups).map ofPlaced ∧
      placed.map PlacedToken.token = front ∧
      PlacedGroups module.text.toList module.attributeGroups.zipIdx groups := by
  obtain ⟨before, hbefore⟩ : ∃ before, before =
      module.frontLines.flatMap fun line => line.toList ++ ['\n'] := ⟨_, rfl⟩
  have hspells : Spells Anything before module.frontTokens := by
    rw [hbefore]
    exact spells_front hglobals
  obtain ⟨placed, hplaced, htokens⟩ := exists_placed ((hspells.tokens 0).trans hfront)
  have hnumber : ∀ entry ∈ module.attributeGroups.zipIdx, entry.2 < UInt32.size := by
    intro entry he
    have := List.snd_lt_of_mem_zipIdx he
    omega
  have hentries : ∀ entry ∈ module.attributeGroups.zipIdx, ∀ a ∈ entry.1,
      Spells Closed a.text.toList (a.tokens.map some) :=
    fun entry he => hattributes entry.1 (List.fst_mem_of_mem_zipIdx he)
  cases hgroups : module.attributeGroups.zipIdx with
  | nil =>
    refine ⟨placed, [], ?_, htokens, PlacedGroups.nil⟩
    rw [scan, toList_text, lines_eq, hgroups, List.map_nil, paragraph, List.append_nil,
      List.append_nil, ← hbefore, hplaced]
  | cons entry entries =>
    have htext : module.text.toList = (before ++ ['\n']) ++
        (entry :: entries).flatMap (fun entry => (groupLine entry).toList ++ ['\n']) ++ [] := by
      rw [toList_text, lines_eq, hgroups, List.flatMap_append, ← hbefore, List.map_cons,
        paragraph_cons, List.flatMap_cons, ← List.map_cons, List.flatMap_map]
      simp only [String.reduceToList, List.nil_append, List.append_assoc, List.append_nil]
    obtain ⟨groups, hscan, hall⟩ := placedGroups (hgroups ▸ hentries) (hgroups ▸ hnumber) htext
    refine ⟨placed, groups, ?_, htokens, hall⟩
    rw [scan, htext, List.append_nil, List.append_assoc, hspells.split _ _ trivial, hplaced,
      List.map_append, ← hscan, List.singleton_append, scanFrom, if_pos (by decide),
      byteCount_append, Nat.zero_add]
    rfl

theorem trim_eq {first last : Char} {row : List Char} (hfirst : isBlank first = false)
    (hlast : isBlank last = false) : trim (first :: (row ++ [last])) = first :: (row ++ [last]) := by
  have hreverse : (first :: (row ++ [last])).reverse = last :: (row.reverse ++ [first]) := by
    simp
  rw [trim, trimStart, List.dropWhile_cons_of_neg (by simp [hfirst]), trimEnd, hreverse,
    List.dropWhile_cons_of_neg (by simp [hlast]), ← hreverse, List.reverse_reverse]

theorem headerStart_eq : Source.headerStart = "; ModuleID = '".toList := by
  delta Source.headerStart
  exact Eq.refl _

/-- The module name is read back from the first line. -/
theorem moduleName_text (module : Module) : Source.moduleName module.text.toList = module.name := by
  obtain ⟨inner, hinner⟩ : ∃ inner, inner = (escapeText module.name).toList := ⟨_, rfl⟩
  obtain ⟨others, htext⟩ : ∃ others, module.text.toList =
      (Source.headerStart ++ (inner ++ ['\''])) ++ '\n' :: others := by
    obtain ⟨rest, hrest⟩ : ∃ rest, module.lines =
        ("; ModuleID = '" ++ escapeText module.name ++ "'") :: rest := by
      simp only [lines_eq, frontLines, headerLines, List.cons_append]
      exact ⟨_, rfl⟩
    refine ⟨rest.flatMap fun line => line.toList ++ ['\n'], ?_⟩
    have hquote : "'".toList = ['\''] := rfl
    rw [toList_text, hrest, List.flatMap_cons, String.toList_append, String.toList_append, hinner,
      headerStart_eq, hquote]
    simp only [List.append_assoc, List.cons_append, List.nil_append]
  have hbreak : ∀ c ∈ Source.headerStart ++ (inner ++ ['\'']), decide (c ≠ '\n') = true := by
    intro c hc
    rw [decide_eq_true_eq]
    rintro rfl
    rw [List.mem_append, List.mem_append] at hc
    rcases hc with hc | hc | hc
    · exact absurd hc (by decide)
    · exact newline_not_mem_escape _ (hinner ▸ hc)
    · exact absurd hc (by decide)
  have hline : module.text.toList.takeWhile (· ≠ '\n') =
      Source.headerStart ++ (inner ++ ['\'']) := by
    rw [htext]
    refine takeWhile_append_stop hbreak ?_
    intro c rest heq
    cases heq
    decide
  have htrim : trim (Source.headerStart ++ (inner ++ ['\''])) =
      Source.headerStart ++ (inner ++ ['\'']) := by
    have hstart : Source.headerStart = ';' :: " ModuleID = '".toList := rfl
    rw [hstart, List.cons_append, ← List.append_assoc]
    exact trim_eq rfl rfl
  have hfound : Source.headerInner? (Source.headerStart ++ (inner ++ ['\''])) = some inner := by
    rw [Source.headerInner?, if_pos (List.isPrefixOf_iff_prefix.mpr (List.prefix_append _ _))]
    simp only [List.drop_left]
    rw [List.getLast?_append, List.getLast?_singleton]
    simp
  rw [Source.moduleName]
  simp only [hline, htrim, hfound, Option.bind_some]
  rw [hinner, unquoted?_escapeText]
  rfl

end Module

end QuantumIR
