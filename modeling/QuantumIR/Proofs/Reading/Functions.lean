import QuantumIR.Proofs.Canonical.ModuleTokens
import QuantumIR.Proofs.Reading.Instructions
import QuantumIR.Reading.Function

/-!
Blocks and functions are read back from the tokens of their canonical text. The attributes of a
function stand elsewhere; with the function itself, only the number of their group is read.
-/

namespace QuantumIR

open Reading

/-- An instruction starts with the register it binds or with a keyword. -/
theorem Instruction.lead_tokens (instruction : Instruction) (next : Option Token) :
    ∃ first, lead instruction.tokens next = some first ∧ Value.opens first := by
  cases instruction with
  | call result ty callee args => cases result <;> exact ⟨_, rfl, rfl⟩
  | ret operand => cases operand <;> exact ⟨_, rfl, rfl⟩
  | _ => exact ⟨_, rfl, rfl⟩

theorem Instruction.tokens_ne_nil (instruction : Instruction) : instruction.tokens ≠ [] := by
  intro hnil
  obtain ⟨first, hfirst, -⟩ := instruction.lead_tokens none
  rw [hnil] at hfirst
  cases hfirst

theorem Instruction.ends_lead_tokens (instruction : Instruction) (next : Option Token) :
    Instruction.Ends (lead instruction.tokens next) := by
  have hlead := instruction.lead_tokens next
  exact ⟨lead_ne hlead rfl, fun _ => lead_ne hlead rfl, lead_ne hlead rfl, lead_ne hlead rfl⟩

namespace Block

/-- The block that the text of a block spells. -/
def canonical (block : Block) : Block :=
  { block with instructions := block.instructions.map Instruction.canonical }

/-- Whether the text of a block spells a block of its form. Nothing stands after a terminator. -/
def Writable (block : Block) : Prop :=
  (∀ instruction ∈ block.instructions, instruction.Writable) ∧
    ∀ instruction ∈ block.instructions.dropLast, instruction.isTerminator = false

/-- What may follow a block: the next label, or the end of the body. -/
def Ends (next : Option Token) : Prop :=
  next = some (.mark .rightBrace) ∨ ∃ label, next = some (.labelDef label)

theorem Ends.instruction {next : Option Token} (h : Ends next) : Instruction.Ends next := by
  rcases h with rfl | ⟨label, rfl⟩ <;> simp [Instruction.Ends, Ty.Ends]

theorem isTerminator_canonical (instruction : Instruction) :
    instruction.canonical.isTerminator = instruction.isTerminator := by
  cases instruction <;> rfl

/-- One instruction more. -/
theorem takes_readInstruction {instruction : Instruction} (h : instruction.Writable)
    (before : List Instruction) :
    Takes (Function.readInstruction before) instruction.tokens
      (· = if instruction.isTerminator then .inr (before ++ [instruction.canonical])
        else .inl (before ++ [instruction.canonical])) Instruction.Ends := by
  apply Takes.peek?
  intro token? hnext
  have hlead := instruction.lead_tokens token?
  split
  · next heq => exact absurd heq (by obtain ⟨first, hfirst, _⟩ := hlead; simp [hfirst])
  · next heq => exact absurd heq (lead_ne hlead rfl)
  · next heq => exact absurd heq (lead_ne hlead rfl)
  · refine (Instruction.takes_read h).last ?_ ?_
    · rintro _ rfl
      rw [isTerminator_canonical]
      split
      · exact Takes.pure rfl
      · exact Takes.pure rfl
    · rintro _ rfl
      exact hnext

/-- The instructions of a block are read back. -/
theorem takes_readInstructions {instructions : List Instruction}
    (h : ∀ instruction ∈ instructions, instruction.Writable)
    (hlast : ∀ instruction ∈ instructions.dropLast, instruction.isTerminator = false) :
    Takes Function.readInstructions (instructions.flatMap Instruction.tokens)
      (· = instructions.map Instruction.canonical) Ends := by
  suffices hloop : ∀ before, Takes (loop .instruction Function.readInstruction before >>= pure)
      (instructions.flatMap Instruction.tokens)
      (· = before ++ instructions.map Instruction.canonical) Ends by
    have := hloop []
    rwa [bind_pure] at this
  induction instructions with
  | nil =>
    intro before
    rw [bind_pure]
    apply Takes.loop_last
    apply Takes.peek?
    rintro token? (rfl | ⟨label, rfl⟩)
    · exact Takes.pure ⟨_, rfl, by simp⟩
    · exact Takes.pure ⟨_, rfl, by simp⟩
  | cons instruction rest ih =>
    intro before
    have hfirst := takes_readInstruction (h instruction List.mem_cons_self) before
    rw [List.flatMap_cons]
    cases hterminator : instruction.isTerminator with
    | true =>
      rw [hterminator] at hfirst
      -- a terminator is the last instruction
      cases rest with
      | cons other others =>
        have := hlast instruction (by simp)
        rw [hterminator] at this
        exact absurd this Bool.noConfusion
      | nil =>
        rw [bind_pure, List.flatMap_nil, List.append_nil]
        apply Takes.loop_last
        refine hfirst.weaken ?_ (fun _ hnext => hnext.instruction)
        rintro _ rfl
        exact ⟨_, rfl, rfl⟩
    | false =>
      rw [hterminator] at hfirst
      have hstep : Takes (Function.readInstruction before) instruction.tokens
          (fun after => ∃ all, after = .inl all ∧ all = before ++ [instruction.canonical])
          Instruction.Ends := by
        refine hfirst.weaken ?_ (fun _ hnext => hnext)
        rintro _ rfl
        exact ⟨_, rfl, rfl⟩
      refine Takes.loop_step instruction.tokens_ne_nil hstep ?_ ?_
      · rintro _ rfl
        have hrest := ih (fun i hi => h i (List.mem_cons_of_mem _ hi)) (fun i hi => hlast i ?_)
          (before ++ [instruction.canonical])
        · refine hrest.weaken ?_ (fun _ hnext => hnext)
          rintro _ rfl
          simp
        · cases rest with
          | nil => exact absurd hi List.not_mem_nil
          | cons other others => exact List.mem_cons_of_mem _ hi
      · intro token? hnext
        cases rest with
        | nil => exact hnext.instruction
        | cons other others =>
          rw [List.flatMap_cons, lead_append]
          exact other.ends_lead_tokens _

theorem takes_readLabel (label : String) :
    Takes Function.readLabel [.labelDef label] (· = label) Free := by
  refine Takes.peek?_cons (Takes.advance ?_)
  refine (takes_observe label).look ?_ (fun _ _ => trivial)
  intro _ _
  exact Takes.pure rfl

/-- One block more. -/
theorem takes_readBlock {block : Block} (h : block.Writable) (before : List Block) :
    Takes (Function.readBlock before) block.tokens
      (fun after => ∃ all, after = .inl all ∧ all = before ++ [block.canonical]) Ends := by
  refine Takes.takeIf_ne (Takes.otherwise Bool.false_ne_true ?_) (fun _ _ => by simp [tokens, lead])
  refine Takes.peek?_cons (Takes.otherwise Bool.false_ne_true ?_)
  refine (takes_readLabel block.label).bindOne ?_ (fun _ _ => trivial)
  rintro _ rfl
  refine (takes_readInstructions h.1 h.2).last ?_ (fun _ hnext => hnext)
  rintro _ rfl
  exact Takes.pure ⟨_, rfl, rfl⟩

/-- The blocks of a body are read back. -/
theorem takes_readBlocks {blocks : List Block} (h : ∀ block ∈ blocks, block.Writable) :
    Takes Function.readBlocks (Function.bodyTokens blocks) (· = blocks.map canonical) Free := by
  refine Takes.expect ?_
  suffices hloop : ∀ before, Takes (loop .instruction Function.readBlock before >>= pure)
      (blocks.flatMap Block.tokens ++ [.mark .rightBrace])
      (· = before ++ blocks.map canonical) Free by
    have := hloop []
    rwa [bind_pure] at this
  induction blocks with
  | nil =>
    intro before
    rw [bind_pure]
    apply Takes.loop_last
    exact Takes.takeIf (Takes.provided rfl (Takes.pure ⟨_, rfl, by simp⟩))
  | cons block rest ih =>
    intro before
    rw [List.flatMap_cons, List.append_assoc]
    refine Takes.loop_step (List.cons_ne_nil _ _) (takes_readBlock (h block List.mem_cons_self)
      before) ?_ ?_
    · rintro _ rfl
      have hrest := ih (fun b hb => h b (List.mem_cons_of_mem block hb))
        (before ++ [block.canonical])
      refine hrest.weaken ?_ (fun _ hnext => hnext)
      rintro _ rfl
      simp
    · intro token? _
      cases rest with
      | nil => exact Or.inl rfl
      | cons other others => exact Or.inr ⟨other.label, rfl⟩

end Block

namespace Param

/-- Whether the text of a parameter spells it. Only a declaration may leave the name out. -/
def Writable (isDefinition : Bool) (param : Param) : Prop :=
  param.ty.Sized ∧ (isDefinition → param.name.isSome)

/-- What may follow a parameter. -/
def Ends (next : Option Token) : Prop :=
  next = some (.mark .comma) ∨ next = some (.mark .rightParen)

theorem takes_readParamName {isDefinition : Bool} {name : Option String}
    (h : isDefinition → name.isSome) :
    Takes (Function.readParamName isDefinition) (name.map Token.localName).toList (· = name)
      Ends := by
  cases name with
  | some name =>
    refine Takes.peek?_cons (Takes.advance ?_)
    refine (takes_observe name).look ?_ (fun _ _ => trivial)
    intro _ _
    exact Takes.pure rfl
  | none =>
    cases isDefinition with
    | true => exact absurd (h rfl) Bool.false_ne_true
    | false =>
      apply Takes.peek?
      rintro token? (rfl | rfl)
      · exact Takes.otherwise Bool.false_ne_true (Takes.pure rfl)
      · exact Takes.otherwise Bool.false_ne_true (Takes.pure rfl)

/-- A parameter is read back. -/
theorem takes_read {isDefinition : Bool} {param : Param} (h : param.Writable isDefinition) :
    Takes (Function.readParam isDefinition) param.tokens (· = param) Ends := by
  have hname : ∀ next, Ends next →
      Ty.Ends (lead (param.name.map Token.localName).toList next) ∧
        NotWord (lead (param.name.map Token.localName).toList next) := by
    intro next hnext
    cases param.name with
    | none => rcases hnext with rfl | rfl <;> simp [lead, Ty.Ends, NotWord]
    | some name => simp [lead, Ty.Ends, NotWord]
  refine Takes.isNext_ne (Takes.otherwise Bool.false_ne_true ?_) ?_
  · refine (Ty.takes_read h.1).bind ?_ (fun next hnext => (hname next hnext).1)
    rintro ty hty
    refine Operand.takes_skipParamAttributes_ne.look ?_ (fun next hnext => (hname next hnext).2)
    intro _ _
    refine (takes_readParamName h.2).last ?_ (fun _ hnext => hnext)
    rintro _ rfl
    rw [hty]
    exact Takes.pure rfl
  · intro next _
    rw [tokens, lead_append]
    exact Ty.lead_tokens_ne rfl

end Param

namespace Function

/-- The function that the text of a function spells, apart from its attributes. -/
def canonical (function : Function) : Function :=
  { function with blocks := function.blocks.map Block.canonical }

/-- Whether the text of a function spells a function of its form. -/
def Writable (function : Function) : Prop :=
  function.ret.Sized ∧ (∀ param ∈ function.params, param.Writable !function.isDeclaration) ∧
    ∀ block ∈ function.blocks, block.Writable

/-- What may follow the attribute group of a function. -/
def EndsSuffix (next : Option Token) : Prop :=
  NotWord next ∧ (∀ number, next ≠ some (.attrGroup number)) ∧
    (∀ text, next ≠ some (.string text)) ∧ ∀ name, next ≠ some (.metadata name)

theorem takes_readSuffixEntry_ne (suffix : Suffix) :
    Takes (readSuffixEntry suffix) [] (fun after => ∃ all, after = .inr all ∧ all = suffix)
      EndsSuffix := by
  apply Takes.peek?
  rintro token? ⟨hword, hgroup, hstring, hmetadata⟩
  rw [lead_nil]
  split
  · exact absurd rfl (hgroup _)
  · exact absurd rfl (hstring _)
  · exact absurd rfl (hword _)
  · exact absurd rfl (hmetadata _)
  · exact Takes.pure ⟨_, rfl, rfl⟩

/-- The number of an attribute group is read back, if there is one. -/
theorem takes_readSuffix (number : Option UInt32) :
    Takes readSuffix (number.map Token.attrGroup).toList
      (fun suffix => suffix.groups.map Prod.fst = number.toList ∧ suffix.attributes = [])
      EndsSuffix := by
  cases number with
  | none =>
    refine (Takes.loop_last (takes_readSuffixEntry_ne _)).weaken ?_ (fun _ hnext => hnext)
    rintro _ rfl
    exact ⟨rfl, rfl⟩
  | some number =>
    have hgroup : Takes (readSuffixEntry ⟨[], []⟩) [.attrGroup number]
        (fun after => ∃ suffix : Suffix, after = .inl suffix ∧
          suffix.groups.map Prod.fst = [number] ∧ suffix.attributes = []) Free :=
      Takes.peek?_cons (Takes.here fun _ => Takes.advance (Takes.pure ⟨_, rfl, rfl, rfl⟩))
    have hloop : Takes (readSuffix >>= pure) ([.attrGroup number] ++ [])
        (fun suffix => suffix.groups.map Prod.fst = [number] ∧ suffix.attributes = [])
        EndsSuffix := by
      refine Takes.loop_step (List.cons_ne_nil _ _) hgroup ?_ (fun _ _ => trivial)
      intro suffix hsuffix
      rw [bind_pure]
      refine (Takes.loop_last (takes_readSuffixEntry_ne _)).weaken ?_ (fun _ hnext => hnext)
      rintro _ rfl
      exact hsuffix
    rwa [bind_pure] at hloop

/-- The keyword that a function starts with. -/
def keyword (function : Function) : Keyword :=
  if function.isDeclaration then .declare else .define

theorem keyword_cases (function : Function) :
    function.keyword = .declare ∨ function.keyword = .define := by
  rw [keyword]
  split
  · exact Or.inl rfl
  · exact Or.inr rfl

/-- The tokens of a function that refers to an attribute group by its number, or to none. -/
def tokens (number : Option UInt32) (function : Function) : List Token :=
  function.signatureTokens function.keyword ++ ((number.map Token.attrGroup).toList ++
    if function.isDeclaration then [] else bodyTokens function.blocks)

theorem takes_readFunctionKeyword (function : Function) :
    Takes readFunctionKeyword [.keyword function.keyword] (· = !function.isDeclaration) Free := by
  rw [keyword]
  cases function.isDeclaration with
  | true =>
    refine Takes.takeIf_ne (Takes.otherwise Bool.false_ne_true ?_) (fun _ _ => by simp [lead])
    exact Takes.takeIf (Takes.provided rfl (Takes.pure rfl))
  | false => exact Takes.takeIf (Takes.provided rfl (Takes.pure rfl))

theorem takes_readParams {isDefinition : Bool} {params : List Param}
    (h : ∀ param ∈ params, param.Writable isDefinition) :
    Takes (parenthesized (readParam isDefinition))
      (.mark .leftParen :: (Token.commaSeparated (params.map Param.tokens) ++ [.mark .rightParen]))
      (· = params) Free := by
  have hitem : ∀ param ∈ params,
      Takes (readParam isDefinition) param.tokens (· = id param) Param.Ends :=
    fun param hparam => Param.takes_read (h param hparam)
  have hparams := takes_parenthesized hitem (Or.inl rfl) (Or.inr rfl) ?_
  · rwa [List.map_id] at hparams
  · intro param _ next
    rw [Param.tokens, lead_append]
    exact Ty.lead_tokens_ne rfl

theorem takes_readBody {function : Function} (h : ∀ block ∈ function.blocks, block.Writable) :
    Takes (readBody !function.isDeclaration)
      (if function.isDeclaration then [] else bodyTokens function.blocks)
      (· = function.blocks.map Block.canonical) Free := by
  cases hdeclaration : function.isDeclaration with
  | true =>
    have hblocks : function.blocks = [] := List.isEmpty_iff.mp hdeclaration
    rw [hblocks]
    exact Takes.pure rfl
  | false => exact Block.takes_readBlocks h

/-- A function is read back, with the number of the attribute group that it refers to. -/
theorem takes_read {function : Function} (h : function.Writable) (number : Option UInt32) :
    Takes Function.read (function.tokens number)
      (fun entry => entry.1 = { function.canonical with attributes := [] } ∧
        entry.2.map Prod.fst = number.toList) EndsSuffix := by
  obtain ⟨hret, hparams, hblocks⟩ := h
  rw [tokens, signatureTokens, List.cons_append, List.append_assoc]
  refine (takes_readFunctionKeyword function).bindOne ?_ (fun _ _ => trivial)
  rintro _ rfl
  refine takes_restartNumbers.look ?_ (fun _ _ => trivial)
  intro _ _
  refine (takes_skipWords_ne _).look ?_ ?_
  · intro _ _
    refine (Ty.takes_read hret).bind ?_ (fun _ _ => by simp [Ty.Ends, lead])
    rintro ret hret
    refine (takes_skipWords_ne _).look ?_ (fun _ _ => by simp [NotWord, lead])
    intro _ _
    refine (takes_globalName function.name).bindOne ?_ (fun _ _ => trivial)
    rintro name hname
    refine (takes_readParams hparams).andThen ?_
    rintro params hparams
    refine (takes_readSuffix number).bind ?_ ?_
    · rintro suffix ⟨hgroups, hattributes⟩
      refine (takes_readBody hblocks).last ?_ fun _ _ => trivial
      rintro blocks hblocks
      refine Takes.pure ⟨?_, hgroups⟩
      rw [hname, hret, hparams, hattributes, hblocks]
      rfl
    · intro next hnext
      split
      · exact hnext
      · simp [EndsSuffix, bodyTokens, lead, NotWord]
  · intro next _
    rw [lead_append]
    exact function.ret.notWord_lead_tokens _

end Function

end QuantumIR
