import QuantumIR.Proofs.Reading.Faithful
import QuantumIR.Proofs.Reading.Needing

/-!
What is read back could be written. The text of an array type may hold a length that is no literal,
and the text of a value may spell a number where its type has none; a reader refuses both. So the
text of a module that keeps the rules of its form is read only if the module is one that its text
spells.
-/

namespace QuantumIR

open Reading Lexeme

namespace Ty

/-- Only lengths below half of the 64-bit words are read. -/
theorem needs_readOpening (length : UInt64) (openings : List UInt64) :
    Needs (readOpening openings)
      [.mark .leftBracket, .integer (Int64.ofNat length.toNat), .keyword .x]
      (length.toNat < 2 ^ 63) := by
  by_cases hlength : length.toNat < 2 ^ 63
  · exact Needs.of hlength
  · have hnegative : Int64.ofNat length.toNat < 0 := by
      have hword := length.toNat_lt
      have hsize : Int64.size = 2 ^ 64 := rfl
      rw [Int64.lt_iff_toInt_lt, Int64.toInt_ofNat', hsize, Int.bmod_eq_emod, Int64.toInt_zero]
      split <;> omega
    refine Needs.takeIf (Needs.provided rfl ?_)
    refine (takes_integer _).needs ?_ fun _ => trivial
    rintro _ rfl
    exact Needs.provided hnegative (Needs.fails fun _ => (gives_unexpected _).stop)

/-- All openings of arrays stand before the rest of a type. -/
theorem needs_readOpened (ty : Ty) (openings : List UInt64) (tokens : List Token) :
    Needs (readOpened openings) (ty.tokens ++ tokens) ty.Sized := by
  induction ty generalizing openings tokens with
  | pointer target ih =>
    rw [Ty.tokens, List.append_assoc]
    exact ih openings _
  | array length element ih =>
    have htokens : (array length element).tokens ++ tokens =
        [.mark .leftBracket, .integer (Int64.ofNat length.toNat), .keyword .x] ++
          (element.tokens ++ .mark .rightBracket :: tokens) := by
      simp [Ty.tokens]
    rw [htokens]
    intro placed rest n found after hplaced hread
    have hlength : length.toNat < 2 ^ 63 :=
      (needs_readOpening length openings).loop.first placed rest n found after
        (by rw [List.append_nil]; exact hplaced) hread
    have hpasses : Passes .ty readOpening openings
        [.mark .leftBracket, .integer (Int64.ofNat length.toNat), .keyword .x]
        (· = length :: openings) Free :=
      (takes_readOpening hlength openings).passes (List.cons_ne_nil _ _)
    refine ⟨hlength, ?_⟩
    refine hpasses.needsThen ?_ (fun _ => trivial) placed rest n found after hplaced hread
    rintro _ rfl
    exact ih (length :: openings) _
  | _ => exact Needs.of trivial

theorem needs_read (ty : Ty) : Needs Ty.read ty.tokens ty.Sized := by
  have hread := needs_readOpened ty [] []
  rwa [List.append_nil] at hread

end Ty

namespace Value

theorem needs_readAddress (ty : Ty) (n : Int64) :
    Needs readAddress
      (.mark .leftParen :: .intType 64 :: .integer n :: .keyword .toWord ::
        (ty.tokens ++ [.mark .rightParen])) ty.Sized := by
  refine Needs.expect ?_
  refine (Ty.takes_read_int 64).needsOne ?_ (fun _ => by simp [Ty.Ends, lead])
  rintro _ rfl
  refine Needs.otherwise Bool.false_ne_true ?_
  refine (takes_integer n).needsOne ?_ fun _ => trivial
  rintro _ rfl
  exact Needs.expect (Ty.needs_read ty).first

theorem needs_readFirstByte (name : String) (length : UInt64) (start : Place) :
    Needs (readFirstByte start) (firstByteTokens name length) (length.toNat < 2 ^ 63) := by
  have harray := Ty.needs_read (.array length (.int 8))
  exact Needs.takeIf (Needs.expect (harray.mono And.left).first)

/-- A value is read only at a type that it can be written at. -/
theorem needs_read (value : Value) (ty : Ty) :
    Needs (Value.read ty) (value.tokens ty) (value.Writable ty) := by
  cases value with
  | double x =>
    by_cases hdouble : ty.isDouble
    · exact Needs.of hdouble
    · exact Needs.peek?_cons (Needs.otherwise hdouble (Needs.fails fun _ => gives_unexpected _))
  | address n =>
    have htokens : (Value.address n).tokens ty = .keyword .inttoptr :: .mark .leftParen ::
        .intType 64 :: .integer n :: .keyword .toWord :: (ty.tokens ++ [.mark .rightParen]) := by
      simp [Value.tokens]
    rw [htokens]
    exact Needs.peek?_cons (Needs.advance (needs_readAddress ty n))
  | firstByte name length =>
    have htokens : (Value.firstByte name length).tokens ty =
        .keyword .getelementptr :: firstByteTokens name length := by
      simp [Value.tokens, firstByteTokens, zeroIndexTokens, Ty.tokens]
    rw [htokens]
    exact Needs.peek?_cons (Needs.here fun start => Needs.advance
      (needs_readFirstByte name length start))
  | _ => exact Needs.of trivial

end Value

theorem Operand.needs_read (operand : Operand) :
    Needs Operand.read operand.tokens operand.Writable := by
  refine (Ty.needs_read operand.ty).andThen Ty.takes_read ?_ ?_
  · rintro - _ rfl
    refine takes_skipParamAttributes_ne.lookNeeds ?_ (fun _ _ => Value.lead_tokens_ne rfl)
    intro _ _
    exact (Value.needs_read operand.value operand.ty).bind
  · exact fun _ => ⟨Value.lead_tokens_ne rfl, Value.lead_tokens_ne rfl⟩

namespace Instruction

theorem needs_readArguments (args : List Operand) :
    Needs (parenthesized Operand.read)
      (.mark .leftParen :: (Token.commaSeparated (args.map Operand.tokens) ++ [.mark .rightParen]))
      (∀ arg ∈ args, arg.Writable) := by
  refine needs_parenthesized (fun arg _ => arg.needs_read) (fun _ _ harg => Operand.takes_read harg)
    trivial ?_
  intro arg _ next
  rw [Operand.tokens, lead_append]
  exact Ty.lead_tokens_ne rfl

theorem needs_readCall {result : Option String} {ty : Ty} {callee : String} {args : List Operand}
    (h : (call result ty callee args).BindsValue) :
    Needs (readCall result) (call result ty callee args).bodyTokens
      (call result ty callee args).Writable := by
  have hresult : result.isSome = !ty.isVoid := by
    have hbinds : result.isSome ↔ ty ≠ .void := h
    rw [Bool.eq_iff_iff, hbinds, Bool.not_eq_true', ne_eq, ← Ty.isVoid_iff, Bool.not_eq_true]
  refine Needs.mono ?_ (fun hneeds => ⟨hresult, hneeds⟩)
  refine Needs.here fun start => Needs.expect ?_
  refine (takes_skipWords_ne _).lookNeeds ?_ ?_
  · intro _ _
    refine (Ty.needs_read ty).andThen Ty.takes_read ?_ (fun _ => by simp [Ty.Ends, lead])
    rintro - _ rfl
    refine Needs.isNext_ne (Needs.otherwise Bool.false_ne_true ?_) (fun _ => by simp [lead])
    refine (takes_readCallee callee).needsOne ?_ fun _ => trivial
    rintro _ rfl
    exact (needs_readArguments args).bind
  · intro next
    rw [lead_append]
    exact ty.notWord_lead_tokens _

theorem needs_readReturn {operand : Option Operand} (h : (ret operand).ReturnsValue) :
    Needs readReturn (ret operand).bodyTokens.tail (ret operand).Writable := by
  cases operand with
  | none => exact Needs.of fun _ hnone => by cases hnone
  | some operand =>
    have hvoid : operand.ty.startsVoid = false := h
    have htokens : (ret (some operand)).bodyTokens.tail = operand.tokens := rfl
    rw [htokens]
    refine Needs.takeIf_ne (Needs.otherwise Bool.false_ne_true ?_) ?_
    · refine operand.needs_read.bind.mono ?_
      rintro hoperand _ ⟨⟩
      exact ⟨hoperand, hvoid⟩
    · intro next
      rw [Operand.tokens, lead_append]
      exact Ty.lead_tokens_ne_void hvoid _

theorem needs_readBranch_if (condition : Value) (onTrue onFalse : String) :
    Needs readBranch
      (Operand.tokens ⟨.bool, condition⟩ ++ .mark .comma ::
        (labelTokens onTrue ++ .mark .comma :: labelTokens onFalse))
      (condition.Writable .bool) := by
  refine Needs.takeIf_ne (Needs.otherwise Bool.false_ne_true ?_) ?_
  · rw [Operand.tokens, List.append_assoc]
    refine (Ty.takes_read_int 1).needs ?_ ?_
    · rintro _ rfl
      exact Needs.otherwise (not_not_intro rfl) (condition.needs_read .bool).first
    · intro next
      rw [lead_append]
      exact ⟨Value.lead_tokens_ne rfl, Value.lead_tokens_ne rfl⟩
  · intro next
    rw [Operand.tokens, lead_append, lead_append]
    exact Ty.lead_tokens_ne rfl

theorem needs_readPair (width : UInt32) (lhs rhs : Value) (word : String) :
    Needs (readPair word)
      (.intType width :: (lhs.tokens (.int width) ++ .mark .comma :: rhs.tokens (.int width)))
      (lhs.Writable (.int width) ∧ rhs.Writable (.int width)) := by
  refine Needs.here fun start => ?_
  refine (Ty.takes_read_int width).needsOne ?_ ?_
  · rintro _ rfl
    refine (lhs.needs_read (.int width)).andThen Value.takes_read ?_ fun _ => trivial
    rintro - _ rfl
    exact Needs.expect (rhs.needs_read (.int width)).bind
  · intro next
    rw [lead_append]
    exact ⟨Value.lead_tokens_ne rfl, Value.lead_tokens_ne rfl⟩

theorem needs_readCompare (predicate : Predicate) (width : UInt32) (lhs rhs : Value)
    (result : Option String) :
    Needs (readCompare result)
      (.word predicate.mnemonic :: .intType width ::
        (lhs.tokens (.int width) ++ .mark .comma :: rhs.tokens (.int width)))
      (lhs.Writable (.int width) ∧ rhs.Writable (.int width)) := by
  refine Needs.peek?_cons ?_
  simp only [Predicate.ofMnemonic?_mnemonic]
  exact Needs.advance (needs_readPair width lhs rhs "icmp").bind

theorem needs_readBinary (op : BinaryOp) (width : UInt32) (lhs rhs : Value)
    (result : Option String) :
    Needs (readBinary result op)
      (.intType width :: (lhs.tokens (.int width) ++ .mark .comma :: rhs.tokens (.int width)))
      (lhs.Writable (.int width) ∧ rhs.Writable (.int width)) := by
  refine (takes_skipWords_ne isFlag).lookNeeds ?_ (fun _ => by simp [NotWord, lead])
  intro _ _
  exact (needs_readPair width lhs rhs op.mnemonic).bind

theorem needs_readConvert (conversion : Conversion) (source target : UInt32) (value : Value)
    (result : Option String) (start : Place) :
    Needs (readConvert result conversion start)
      (.intType source :: (value.tokens (.int source) ++ .keyword .toWord :: [.intType target]))
      (value.Writable (.int source)) := by
  refine Needs.takeIf_ne ?_ (fun _ => by simp [lead])
  refine (Ty.takes_read_int source).needsOne ?_ ?_
  · rintro _ rfl
    exact (value.needs_read (.int source)).first
  · intro next
    rw [lead_append]
    exact ⟨Value.lead_tokens_ne rfl, Value.lead_tokens_ne rfl⟩

theorem needs_readSelect (condition onTrue onFalse : Value) (ty : Ty) (result : Option String)
    (start : Place) :
    Needs (readSelect result start)
      (Operand.tokens ⟨.bool, condition⟩ ++ .mark .comma ::
        (Operand.tokens ⟨ty, onTrue⟩ ++ .mark .comma :: Operand.tokens ⟨ty, onFalse⟩))
      (Operand.Writable ⟨.bool, condition⟩ ∧ Operand.Writable ⟨ty, onTrue⟩ ∧
        Operand.Writable ⟨ty, onFalse⟩) := by
  refine (Operand.needs_read ⟨.bool, condition⟩).andThen Operand.takes_read ?_ fun _ => trivial
  rintro - _ rfl
  refine Needs.otherwise (not_not_intro rfl) (Needs.expect ?_)
  refine (Operand.needs_read ⟨ty, onTrue⟩).andThen Operand.takes_read ?_ fun _ => trivial
  rintro - _ rfl
  exact Needs.expect (Operand.needs_read ⟨ty, onFalse⟩).bind

/-- The body of an instruction is read only if it can be written. -/
theorem needs_readBody {instruction : Instruction} (hbinds : instruction.BindsValue)
    (hreturns : instruction.ReturnsValue) :
    Needs (readBody instruction.result?) instruction.bodyTokens instruction.Writable := by
  refine Needs.here fun start => ?_
  cases instruction with
  | call result ty callee args => exact Needs.peek?_cons (needs_readCall hbinds)
  | binary result op width lhs rhs =>
    refine Needs.peek?_cons ?_
    simp only [readWord_binary]
    exact Needs.advance (needs_readBinary op width lhs rhs result)
  | compare result predicate width lhs rhs =>
    exact Needs.peek?_cons (Needs.advance (needs_readCompare predicate width lhs rhs result))
  | convert result conversion source value target =>
    refine Needs.peek?_cons ?_
    simp only [readWord_convert]
    exact Needs.advance (needs_readConvert conversion source target value result start)
  | select result condition ty onTrue onFalse =>
    refine Needs.peek?_cons (Needs.advance ?_)
    exact (needs_readSelect condition onTrue onFalse ty result start).mono
      fun ⟨hcondition, hrest⟩ => ⟨hcondition.2, hrest⟩
  | branch target => exact Needs.of trivial
  | branchIf condition onTrue onFalse =>
    refine Needs.peek?_cons ((takes_refuseResult start).lookNeeds ?_ fun _ => trivial)
    intro _ _
    exact Needs.advance (needs_readBranch_if condition onTrue onFalse)
  | ret operand =>
    have htokens : (ret operand).bodyTokens = .keyword .ret :: (ret operand).bodyTokens.tail := by
      cases operand <;> rfl
    rw [htokens]
    refine Needs.peek?_cons ((takes_refuseResult start).lookNeeds ?_ fun _ => trivial)
    intro _ _
    exact Needs.advance (needs_readReturn hreturns)

/-- An instruction is read only if it can be written. -/
theorem needs_read {instruction : Instruction} (hbinds : instruction.BindsValue)
    (hreturns : instruction.ReturnsValue) :
    Needs Instruction.read instruction.tokens instruction.Writable := by
  have hbody : ∀ result, result = instruction.result? → Needs (do
      let body ← readBody result
      skipAttachments
      return body) instruction.bodyTokens instruction.Writable := by
    rintro _ rfl
    exact (needs_readBody hbinds hreturns).bind
  rw [tokens]
  cases hresult : instruction.result? with
  | none =>
    rw [hresult] at hbody
    exact takes_readBinding_ne.lookNeeds hbody fun next => instruction.lead_bodyTokens_ne next
  | some result =>
    rw [hresult] at hbody
    exact (takes_readBinding result).needs hbody fun _ => trivial

end Instruction

namespace Block

/-- Whether the text of a block spells a block of its form if it spells its operands. -/
def Formed (block : Block) : Prop :=
  (∀ instruction ∈ block.instructions, instruction.BindsValue ∧ instruction.ReturnsValue) ∧
    ∀ instruction ∈ block.instructions.dropLast, instruction.isTerminator = false

theorem needs_readInstruction {instruction : Instruction} (hbinds : instruction.BindsValue)
    (hreturns : instruction.ReturnsValue) (before : List Instruction) :
    Needs (Function.readInstruction before) instruction.tokens instruction.Writable := by
  refine Needs.peek? fun token? => ?_
  have hlead := instruction.lead_tokens token?
  split
  · next heq => exact absurd heq (by obtain ⟨first, hfirst, _⟩ := hlead; simp [hfirst])
  · next heq => exact absurd heq (lead_ne hlead rfl)
  · next heq => exact absurd heq (lead_ne hlead rfl)
  · exact (Instruction.needs_read hbinds hreturns).bind

/-- The instructions of a block are read only if all of them can be written. -/
theorem needs_readInstructions {block : Block} (h : block.Formed) :
    Needs Function.readInstructions (block.instructions.flatMap Instruction.tokens)
      block.Writable := by
  have htakes : ∀ instruction ∈ block.instructions.dropLast, instruction.Writable → ∀ before,
      Takes (Function.readInstruction before) instruction.tokens
        (fun next => ∃ all, next = .inl all ∧ True) Instruction.Ends := by
    intro instruction hmem hwritable before
    refine (takes_readInstruction hwritable before).weaken ?_ fun _ hnext => hnext
    rintro _ rfl
    rw [h.2 instruction hmem]
    exact ⟨_, rfl, trivial⟩
  have hitems : Needs Function.readInstructions
      (block.instructions.flatMap Instruction.tokens ++ [])
      (∀ instruction ∈ block.instructions, instruction.Writable) := by
    refine needs_flatMap ?_ htakes ?_ []
    · intro instruction hmem before
      obtain ⟨hbinds, hreturns⟩ := h.1 instruction hmem
      exact needs_readInstruction hbinds hreturns before
    · exact fun instruction _ next =>
        ⟨instruction.tokens_ne_nil, instruction.ends_lead_tokens next⟩
  rw [List.append_nil] at hitems
  exact hitems.mono fun hinstructions => ⟨hinstructions, h.2⟩

theorem needs_readBlock {block : Block} (h : block.Formed) (before : List Block) :
    Needs (Function.readBlock before) block.tokens block.Writable := by
  refine Needs.takeIf_ne (Needs.otherwise Bool.false_ne_true ?_) (fun _ => by simp [tokens, lead])
  refine Needs.peek?_cons (Needs.otherwise Bool.false_ne_true ?_)
  refine (takes_readLabel block.label).needsOne ?_ fun _ => trivial
  rintro _ rfl
  exact (needs_readInstructions h).bind

/-- The blocks of a body are read only if all of them can be written. -/
theorem needs_readBlocks {blocks : List Block} (h : ∀ block ∈ blocks, block.Formed) :
    Needs Function.readBlocks (Function.bodyTokens blocks) (∀ block ∈ blocks, block.Writable) := by
  have htakes : ∀ block ∈ blocks.dropLast, block.Writable → ∀ before,
      Takes (Function.readBlock before) block.tokens (fun next => ∃ all, next = .inl all ∧ True)
        Ends := by
    intro block _ hwritable before
    refine (takes_readBlock hwritable before).weaken ?_ fun _ hnext => hnext
    rintro _ ⟨all, rfl, -⟩
    exact ⟨all, rfl, trivial⟩
  refine Needs.expect (needs_flatMap ?_ htakes ?_ [])
  · exact fun block hmem before => needs_readBlock (h block hmem) before
  · exact fun block _ _ => ⟨List.cons_ne_nil _ _, Or.inr ⟨block.label, rfl⟩⟩

end Block

theorem Param.needs_read (isDefinition : Bool) (param : Param) :
    Needs (Function.readParam isDefinition) param.tokens param.ty.Sized := by
  refine Needs.isNext_ne (Needs.otherwise Bool.false_ne_true ?_) ?_
  · exact (Ty.needs_read param.ty).first
  · intro next
    rw [tokens, lead_append]
    exact Ty.lead_tokens_ne rfl

namespace Function

/-- Whether the text of a function spells a function of its form if it spells its types and
operands. -/
def Formed (function : Function) : Prop :=
  (∀ param ∈ function.params, function.isDeclaration = false → param.name.isSome) ∧
    ∀ block ∈ function.blocks, block.Formed

theorem needs_readParams {isDefinition : Bool} {params : List Param}
    (h : ∀ param ∈ params, isDefinition → param.name.isSome) :
    Needs (parenthesized (readParam isDefinition))
      (.mark .leftParen :: (Token.commaSeparated (params.map Param.tokens) ++ [.mark .rightParen]))
      (∀ param ∈ params, param.Writable isDefinition) := by
  have htakes : ∀ param ∈ params, param.ty.Sized →
      Takes (readParam isDefinition) param.tokens (· = id param) Param.Ends :=
    fun param hparam hsized => Param.takes_read ⟨hsized, h param hparam⟩
  have hparams := needs_parenthesized (fun param _ => param.needs_read isDefinition) htakes
    (Or.inl rfl) ?_
  · exact hparams.mono fun hsized param hparam => ⟨hsized param hparam, h param hparam⟩
  · intro param _ next
    rw [Param.tokens, lead_append]
    exact Ty.lead_tokens_ne rfl

/-- A function is read only if it can be written. -/
theorem needs_read {function : Function} (h : function.Formed) (number : Option UInt32) :
    Needs Function.read (function.tokens number) function.Writable := by
  have hnamed : ∀ param ∈ function.params, (!function.isDeclaration) → param.name.isSome := by
    intro param hparam hdefinition
    exact h.1 param hparam (by simpa using hdefinition)
  rw [tokens, signatureTokens, List.cons_append, List.append_assoc]
  refine (takes_readFunctionKeyword function).needsOne ?_ fun _ => trivial
  rintro _ rfl
  refine takes_restartNumbers.lookNeeds ?_ fun _ => trivial
  intro _ _
  refine (takes_skipWords_ne _).lookNeeds ?_ ?_
  · intro _ _
    refine (Ty.needs_read function.ret).andThen Ty.takes_read ?_ (fun _ => by simp [Ty.Ends, lead])
    intro _ _ _
    refine (takes_skipWords_ne _).lookNeeds ?_ (fun _ => by simp [NotWord, lead])
    intro _ _
    refine (takes_globalName function.name).needsOne ?_ fun _ => trivial
    intro _ _
    refine (needs_readParams hnamed).andThen takes_readParams ?_ fun _ => trivial
    intro _ _ _
    cases hdeclaration : function.isDeclaration with
    | true =>
      rw [List.isEmpty_iff.mp hdeclaration]
      exact Needs.of fun _ hnil => absurd hnil List.not_mem_nil
    | false =>
      refine (takes_readSuffix number).needs ?_ (fun _ => by
        simp [EndsSuffix, bodyTokens, lead, NotWord])
      intro _ _
      exact (Block.needs_readBlocks h.2).bind
  · intro next
    rw [lead_append]
    exact function.ret.notWord_lead_tokens _

end Function

namespace Module

/-- Whether the text of a module spells a module of its form if it spells its types and operands. -/
structure Formed (module : Module) : Prop where
  distinct : (module.globals.map GlobalString.name).Nodup
  sized : ∀ global ∈ module.globals, global.bytes.length < 2 ^ 63
  functions : ∀ function ∈ module.functions, function.Formed
  attributes : ∀ function ∈ module.functions, ∀ attr ∈ function.attributes, attr.Writable

theorem mem_entities {module : Module} {function : Function} (h : function ∈ module.functions) :
    function ∈ module.declarations ++ module.definitions := by
  rw [List.mem_append, declarations, definitions, List.mem_filter, List.mem_filter]
  cases function.isDeclaration with
  | true => exact Or.inl ⟨h, rfl⟩
  | false => exact Or.inr ⟨h, rfl⟩

theorem needs_readNextEntity (text : List Char) (draft : Draft) {function : Function}
    (h : function.Formed) (number : Option UInt32) :
    Needs (readNextEntity text draft) (function.tokens number) function.Writable := by
  have htokens : function.tokens number =
      .keyword function.keyword :: (function.tokens number).tail := rfl
  have hread : Needs (Function.read >>= fun entry =>
      pure { draft with functions := draft.functions ++ [entry] }) (function.tokens number)
      function.Writable := (Function.needs_read h number).bind
  have hentity : Needs (readEntity text draft) (function.tokens number) function.Writable := by
    rw [htokens] at hread ⊢
    refine Needs.here fun start => Needs.peek?_cons ?_
    rcases function.keyword_cases with hkeyword | hkeyword
    · rw [hkeyword] at hread ⊢
      exact hread
    · rw [hkeyword] at hread ⊢
      exact hread
  rw [htokens]
  refine Needs.peek?_cons (Needs.otherwise Bool.false_ne_true ?_)
  rw [← htokens]
  exact hentity.bind

theorem needs_functions {module : Module} (text : List Char) (h : module.Formed)
    (numbers : Function → Option UInt32) (draft : Draft) :
    Needs (loop .topLevel (readNextEntity text) draft)
      ((module.declarations ++ module.definitions).flatMap (fun function =>
        function.tokens (numbers function)) ++ [])
      (∀ function ∈ module.declarations ++ module.definitions, function.Writable) := by
  have htakes : ∀ function ∈ (module.declarations ++ module.definitions).dropLast,
      function.Writable → ∀ draft, Takes (readNextEntity text draft)
        (function.tokens (numbers function)) (fun next => ∃ draft', next = .inl draft' ∧ True)
        Function.EndsSuffix := by
    intro function _ hwritable draft
    have hread := takes_readNextEntity text
      (takes_readEntity_function text draft hwritable (numbers function))
    refine hread.weaken ?_ fun _ hnext => hnext
    rintro _ ⟨draft', rfl, -⟩
    exact ⟨draft', rfl, trivial⟩
  refine needs_flatMap ?_ htakes ?_ draft
  · intro function hmem draft
    exact needs_readNextEntity text draft (h.functions function (mem_functions hmem)) _
  · exact fun function _ _ => ⟨List.cons_ne_nil _ _, (ends_keyword function.keyword).2⟩

/-- The functions of a module are read only if all of them can be written. -/
theorem needs_readEntities {module : Module} (h : module.Formed) (text : List Char) :
    Needs (readEntities text) module.entityTokens
      (∀ function ∈ module.declarations ++ module.definitions, function.Writable) := by
  cases hall : module.declarations ++ module.definitions with
  | nil => exact Needs.of fun _ hnil => absurd hnil List.not_mem_nil
  | cons first others =>
    -- whatever stands behind the text, a function follows the entities before it
    have hfunctions : ∀ next, Ends (lead ((first :: others).flatMap fun function =>
        function.tokens (groupNumber? module.attributeGroups function)) next) := by
      intro next
      rw [List.flatMap_cons, lead_append]
      exact ends_keyword first.keyword
    have hglobals : ∀ next, Ends (lead (module.globals.flatMap GlobalString.tokens ++
        (first :: others).flatMap fun function =>
          function.tokens (groupNumber? module.attributeGroups function)) next) := by
      intro next
      rw [lead_append]
      exact ends_lead_flatMap ends_lead_global _ (hfunctions next)
    rw [entityTokens, hall]
    refine (passes_source text module.source).needs ?_ ?_
    · rintro _ rfl
      refine (passes_opaqueTypes text module.source module.opaqueTypes).needs ?_ hglobals
      rintro _ rfl
      refine (passes_globals text module.source module.opaqueTypes h.sized h.distinct).needs ?_
        hfunctions
      rintro _ rfl
      rw [← hall, ← List.append_nil (List.flatMap _ _)]
      exact needs_functions text h _ _
    · intro next
      rw [lead_append]
      exact ends_lead_flatMap ends_lead_opaqueType _ (hglobals next)

/-- The text of a module is read only if it spells the types and operands of the module. -/
theorem writable_of_parse_text {module found : Module} (h : module.Formed)
    (hcount : module.attributeGroups.length ≤ UInt32.size) (hparse : parse module.text = .ok found) :
    module.Writable := by
  have hsized : ∀ global ∈ module.globals, global.bytes.length < UInt64.size :=
    fun global hglobal => Nat.lt_trans (h.sized global hglobal) (by decide)
  have hspells : ∀ entry ∈ module.attributeGroups, ∀ a ∈ entry,
      Spells Closed a.text.toList (a.tokens.map some) := fun entry hentry a ha =>
    (writable_of_mem_attributeGroups h.attributes entry hentry a ha).spells
  have hcalm : Source.blankMetadata module.text.toList = module.text.toList :=
    Source.blankMetadata_of_calm (spells_text hsized hspells).calm
  obtain ⟨placed, groups, hscan, htokens, -⟩ :=
    exists_placed_scan hsized hspells hcount (frontTokens_eq hcount)
  obtain ⟨draft, after, hread⟩ : ∃ draft after,
      readEntities module.text.toList ⟨placed ++ groups, 0⟩ = .ok (draft, after) := by
    rw [parse, hcalm, readText, hscan, placeTokens_map] at hparse
    change Except.mapError _ (Except.bind (readEntities module.text.toList ⟨placed ++ groups, 0⟩) _) =
      _ at hparse
    cases hread : readEntities module.text.toList ⟨placed ++ groups, 0⟩ with
    | ok result => exact ⟨result.1, result.2, rfl⟩
    | error fault =>
      rw [hread] at hparse
      cases hparse
  have hfunctions := needs_readEntities h module.text.toList placed groups 0 draft after htokens hread
  exact ⟨h.distinct, h.sized, fun function hmem => hfunctions function (mem_entities hmem),
    h.attributes⟩

/-- What is read of the text of a module is the module that the text spells. -/
theorem eq_canonical_of_parse {module found : Module} (h : module.Formed)
    (hcount : module.attributeGroups.length ≤ UInt32.size) (hparse : parse module.text = .ok found) :
    found = module.canonical := by
  rw [parse_text (writable_of_parse_text h hcount hparse) hcount] at hparse
  exact (Except.ok.inj hparse).symm

end Module

end QuantumIR
