import QuantumIR.Proofs.Canonical.InstructionTokens

/-!
The tokens that the canonical text of functions spells, line by line. The number of an attribute
group past the 32-bit numbers spells none, which the lists of tokens say with `none`.
-/

namespace QuantumIR

open Lexeme

namespace Lexeme

variable {text : List Char} {tokens tokens' : List (Option Token)}

/-- Lines, each with its line break, spell tokens. -/
def SpellsLines (lines : List String) (tokens : List (Option Token)) : Prop :=
  Spells Anything (lines.flatMap fun line => line.toList ++ ['\n']) tokens

theorem SpellsLines.nil : SpellsLines [] [] := Spells.empty

theorem SpellsLines.append {lines lines' : List String} (h : SpellsLines lines tokens)
    (h' : SpellsLines lines' tokens') : SpellsLines (lines ++ lines') (tokens ++ tokens') := by
  refine (Spells.then h h').cast ?_ rfl
  rw [List.flatMap_append]

theorem SpellsLines.line {line : String} (h : Spells Closed line.toList tokens) :
    SpellsLines [line] tokens := by
  have hnewline : Spells Anything (line.toList ++ ['\n']) (tokens ++ []) := by
    refine h.append Spells.newline ?_
    intro post _
    exact closed_cons.mpr rfl
  exact hnewline.cast (List.append_nil _) (List.append_nil tokens).symm

theorem SpellsLines.blank : SpellsLines [""] [] :=
  SpellsLines.line Spells.nothing

theorem SpellsLines.cons {line : String} {lines : List String} (h : Spells Closed line.toList tokens)
    (h' : SpellsLines lines tokens') : SpellsLines (line :: lines) (tokens ++ tokens') :=
  (SpellsLines.line h).append h'

theorem SpellsLines.flatMap {α : Type} {lines : α → List String}
    {tokens : α → List (Option Token)} (items : List α)
    (h : ∀ a ∈ items, SpellsLines (lines a) (tokens a)) :
    SpellsLines (items.flatMap lines) (items.flatMap tokens) := by
  induction items with
  | nil => exact SpellsLines.nil
  | cons a rest ih =>
    exact (h a List.mem_cons_self).append (ih fun b hb => h b (List.mem_cons_of_mem a hb))

theorem SpellsLines.map {α : Type} {line : α → String} {tokens : α → List (Option Token)}
    (items : List α) (h : ∀ a ∈ items, Spells Closed (line a).toList (tokens a)) :
    SpellsLines (items.map line) (items.flatMap tokens) := by
  rw [List.map_eq_flatMap]
  exact SpellsLines.flatMap items fun a ha => SpellsLines.line (h a ha)

theorem SpellsLines.paragraph {lines : List String} (h : SpellsLines lines tokens) :
    SpellsLines (Module.paragraph lines) tokens := by
  cases lines with
  | nil => exact h
  | cons line rest => exact SpellsLines.blank.append h

end Lexeme

/-- The token of an attribute group's number, if there is one. -/
def groupToken (number : Nat) : Option Token :=
  (Cut.word32? (Nat.toDigits 10 number)).map Token.attrGroup

theorem groupToken_of_lt {number : Nat} (h : number < UInt32.size) :
    groupToken number = some (.attrGroup (UInt32.ofNat number)) := by
  simp [groupToken, Cut.word32?, Text.digits?_toDigits, h]

def Param.tokens (param : Param) : List Token :=
  param.ty.tokens ++ (param.name.map Token.localName).toList

theorem Param.spells (param : Param) :
    Spells Closed param.text.toList (param.tokens.map some) := by
  obtain ⟨ty, name⟩ := param
  cases name with
  | none =>
    refine ty.spells.cast rfl ?_
    simp only [Param.tokens, Option.map_none, Option.toList_none, List.append_nil]
  | some name =>
    refine (ty.spells.blankThen (Spells.localName name)).cast ?_ ?_
    · simp only [Param.text, String.toList_append, String.reduceToList, List.append_assoc,
        List.cons_append, List.nil_append]
    · simp only [Param.tokens, List.map_append]
      rfl

/-- The tokens of a block. -/
def Block.tokens (block : Block) : List Token :=
  .labelDef block.label :: block.instructions.flatMap Instruction.tokens

theorem Block.spells (block : Block) : SpellsLines block.lines (block.tokens.map some) := by
  have hinstruction : ∀ instruction ∈ block.instructions,
      Spells Closed ("  " ++ instruction.text).toList (instruction.tokens.map some) := by
    intro instruction _
    refine (Spells.blank.then (Spells.blank.then instruction.spells)).cast ?_ rfl
    rw [String.toList_append]
    rfl
  refine (SpellsLines.cons (Spells.labelDef block.label).weaken
    (SpellsLines.map block.instructions hinstruction)).cast rfl ?_
  rw [Block.tokens, List.map_cons, List.map_flatMap]
  rfl

namespace Function

/-- The tokens of a function up to its attribute group. -/
def signatureTokens (keyword : Keyword) (function : Function) : List Token :=
  .keyword keyword :: (function.ret.tokens ++ .globalName function.name :: .mark .leftParen ::
    (Token.commaSeparated (function.params.map Param.tokens) ++ [.mark .rightParen]))

/-- The token of a function's attribute group, if it has attributes. -/
def groupTokens (groups : List (List Attribute)) (function : Function) : List (Option Token) :=
  if function.attributes.isEmpty then [] else [groupToken (groups.idxOf function.attributes)]

/-- The tokens of blocks between braces. -/
def bodyTokens (blocks : List Block) : List Token :=
  .mark .leftBrace :: (blocks.flatMap Block.tokens ++ [.mark .rightBrace])

def declarationTokens (groups : List (List Attribute)) (function : Function) :
    List (Option Token) :=
  (function.signatureTokens .declare).map some ++ function.groupTokens groups

def definitionTokens (groups : List (List Attribute)) (function : Function) :
    List (Option Token) :=
  (function.signatureTokens .define).map some ++ function.groupTokens groups ++
    (bodyTokens function.blocks).map some

theorem spells_header (keyword : Keyword) (groups : List (List Attribute)) (function : Function) :
    Spells Closed (function.header keyword.text groups).toList
      ((function.signatureTokens keyword).map some ++ function.groupTokens groups) := by
  have hgroup : Spells Closed (if function.attributes.isEmpty then ""
      else " #" ++ toString (groups.idxOf function.attributes)).toList
      (function.groupTokens groups) := by
    rw [groupTokens]
    split
    · exact Spells.nothing
    · refine (Spells.blank.then (Spells.group _)).cast ?_ rfl
      simp only [String.toList_append, String.reduceToList, List.cons_append, List.nil_append]
  have hparams := (Spells.commaSeparated function.params fun p _ => p.spells).markThen ')' rfl rfl
    hgroup
  have hname := (Spells.globalName function.name).markThen '(' rfl rfl hparams
  refine ((Spells.keyword keyword).blankThen (function.ret.spells.blankThen hname)).cast ?_ ?_
  · simp only [header, String.toList_append, String.reduceToList, List.append_assoc,
      List.cons_append, List.nil_append]
  · simp only [signatureTokens, List.map_cons, List.map_append, List.append_assoc,
      List.cons_append, List.map_nil, List.nil_append]

theorem spells_body (blocks : List Block) :
    SpellsLines (bodyLines blocks) ((blocks.flatMap Block.tokens).map some) := by
  induction blocks with
  | nil => exact SpellsLines.nil
  | cons block rest ih =>
    cases rest with
    | nil =>
      refine block.spells.cast rfl ?_
      rw [List.flatMap_singleton]
    | cons other blocks =>
      refine (block.spells.append (SpellsLines.blank.append ih)).cast rfl ?_
      rw [List.flatMap_cons, List.map_append]
      rfl

theorem spells_declaration (groups : List (List Attribute)) (function : Function) :
    SpellsLines (function.declarationLines groups) (function.declarationTokens groups) :=
  SpellsLines.line (function.spells_header .declare groups)

theorem spells_definition (groups : List (List Attribute)) (function : Function) :
    SpellsLines (function.definitionLines groups) (function.definitionTokens groups) := by
  have hopening : Spells Closed (function.header "define" groups ++ " \x7b").toList
      ((function.signatureTokens .define).map some ++ function.groupTokens groups ++
        [some (.mark .leftBrace)]) := by
    refine ((function.spells_header .define groups).blankThen (Spells.mark '\x7b' rfl).weaken).cast
      ?_ rfl
    rw [String.toList_append]
    rfl
  have hclosing : SpellsLines ["\x7d"] [some (.mark .rightBrace)] :=
    SpellsLines.line (Spells.mark '\x7d' rfl).weaken
  refine (SpellsLines.cons hopening ((spells_body function.blocks).append hclosing)).cast rfl ?_
  simp only [definitionTokens, bodyTokens, List.map_cons, List.map_append, List.append_assoc,
    List.map_nil, List.cons_append, List.nil_append]

end Function

end QuantumIR
