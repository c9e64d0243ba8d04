import QuantumIR.Proofs.Canonical.InstructionTokens
import QuantumIR.Proofs.Reading.Operands
import QuantumIR.Reading.Instruction

/-!
Instructions are read back from the tokens of their canonical text.
-/

namespace QuantumIR

open Reading

/-- Whether the text of a type starts with the word `void`: the type itself, and pointers to it. -/
def Ty.startsVoid : Ty → Bool
  | void => true
  | pointer target => target.startsVoid
  | _ => false

theorem Ty.lead_tokens_ne_void {ty : Ty} (h : ty.startsVoid = false) (next : Option Token) :
    lead ty.tokens next ≠ some (.keyword .void) := by
  induction ty generalizing next with
  | void => exact absurd h Bool.noConfusion
  | pointer target ih =>
    rw [Ty.tokens, lead_append]
    exact ih h _
  | _ => simp [Ty.tokens, lead]

theorem BinaryOp.ofMnemonic?_mnemonic (op : BinaryOp) :
    BinaryOp.ofMnemonic? op.mnemonic = some op := by
  cases op <;> rfl

theorem Predicate.ofMnemonic?_mnemonic (predicate : Predicate) :
    Predicate.ofMnemonic? predicate.mnemonic = some predicate := by
  cases predicate <;> rfl

theorem Conversion.ofMnemonic?_mnemonic (conversion : Conversion) :
    Conversion.ofMnemonic? conversion.mnemonic = some conversion := by
  cases conversion <;> rfl

namespace Instruction

/-- The instruction that the text of an instruction spells. -/
def canonical : Instruction → Instruction
  | call result ty callee args => call result ty callee (args.map Operand.canonical)
  | binary result op width lhs rhs =>
    binary result op width (lhs.canonical (.int width)) (rhs.canonical (.int width))
  | compare result predicate width lhs rhs =>
    compare result predicate width (lhs.canonical (.int width)) (rhs.canonical (.int width))
  | convert result conversion source value target =>
    convert result conversion source (value.canonical (.int source)) target
  | select result condition ty onTrue onFalse =>
    select result (condition.canonical .bool) ty (onTrue.canonical ty) (onFalse.canonical ty)
  | branch target => branch target
  | branchIf condition onTrue onFalse => branchIf (condition.canonical .bool) onTrue onFalse
  | ret operand => ret (operand.map Operand.canonical)

/-- Whether the text of an instruction spells an instruction of its form. -/
def Writable : Instruction → Prop
  | call result ty _ args =>
    result.isSome = !ty.isVoid ∧ ty.Sized ∧ ∀ arg ∈ args, arg.Writable
  | binary _ _ width lhs rhs | compare _ _ width lhs rhs =>
    lhs.Writable (.int width) ∧ rhs.Writable (.int width)
  | convert _ _ source value _ => value.Writable (.int source)
  | select _ condition ty onTrue onFalse =>
    condition.Writable .bool ∧ Operand.Writable ⟨ty, onTrue⟩ ∧ Operand.Writable ⟨ty, onFalse⟩
  | branch _ => True
  | branchIf condition _ _ => condition.Writable .bool
  | ret operand => ∀ arg ∈ operand, arg.Writable ∧ arg.ty.startsVoid = false

/-- What may follow an instruction: no comma, no attribute group and nothing that goes on a type. -/
def Ends (next : Option Token) : Prop :=
  next ≠ some (.mark .comma) ∧ (∀ number, next ≠ some (.attrGroup number)) ∧ Ty.Ends next

theorem takes_skipGroups_ne :
    Takes skipGroups [] (fun _ => True) (fun next => ∀ number, next ≠ some (.attrGroup number)) := by
  intro placed rest n hplaced hnext
  rw [List.map_eq_nil_iff] at hplaced
  subst hplaced
  refine ⟨(), n, trivial, ?_⟩
  rw [List.nil_append, skipGroups]
  cases rest with
  | nil => rfl
  | cons first others =>
    rw [List.dropWhile_cons_of_neg]
    simp only [List.head?_cons, Option.map_some, ne_eq, Option.some.injEq] at hnext
    split
    · next number hgroup => exact absurd hgroup (hnext number)
    · exact Bool.false_ne_true

theorem takes_skipAttachments_ne :
    Takes skipAttachments [] (fun _ => True) (· ≠ some (.mark .comma)) := by
  intro placed rest n hplaced hnext
  rw [List.map_eq_nil_iff] at hplaced
  subst hplaced
  refine ⟨(), n, trivial, ?_⟩
  rw [List.nil_append, skipAttachments]
  have hsame : withoutAttachments rest = rest := by
    rw [withoutAttachments.eq_def]
    split
    · exact absurd rfl hnext
    · exact absurd rfl hnext
    · rfl
  rw [hsame]

theorem takes_readCallee (callee : String) :
    Takes readCallee [.globalName callee] (· = callee) Free :=
  Takes.peek?_cons (Takes.advance (Takes.pure rfl))

theorem takes_readArguments {args : List Operand} (h : ∀ arg ∈ args, arg.Writable) :
    Takes (parenthesized Operand.read)
      (.mark .leftParen :: (Token.commaSeparated (args.map Operand.tokens) ++ [.mark .rightParen]))
      (· = args.map Operand.canonical) Free := by
  refine takes_parenthesized (fun arg harg => Operand.takes_read (h arg harg)) trivial trivial ?_
  intro arg _ next
  rw [Operand.tokens, lead_append]
  exact Ty.lead_tokens_ne rfl

theorem takes_readCall {result : Option String} {ty : Ty} {callee : String} {args : List Operand}
    (h : (call result ty callee args).Writable) :
    Takes (readCall result) (call result ty callee args).bodyTokens
      (· = (call result ty callee args).canonical) Ends := by
  obtain ⟨hresult, hty, hargs⟩ := h
  refine Takes.here fun start => Takes.expect ?_
  refine (takes_skipWords_ne _).look ?_ ?_
  · intro _ _
    refine (Ty.takes_read hty).bind ?_ (fun _ _ => by simp [Ty.Ends, lead])
    rintro ty rfl
    refine Takes.isNext_ne (Takes.otherwise Bool.false_ne_true ?_) (fun _ _ => by simp [lead])
    refine (takes_readCallee callee).andThen ?_
    rintro callee rfl
    refine (takes_readArguments hargs).last ?_ fun _ _ => trivial
    rintro _ rfl
    refine takes_skipGroups_ne.look ?_ (fun _ hnext => hnext.2.1)
    intro _ _
    cases hvoid : ty.isVoid with
    | true =>
      rw [hvoid] at hresult
      cases result with
      | none => exact Takes.provided rfl (Takes.pure rfl)
      | some name => exact absurd hresult Bool.noConfusion
    | false =>
      rw [hvoid] at hresult
      cases result with
      | none => exact absurd hresult Bool.noConfusion
      | some name => exact Takes.otherwise Bool.false_ne_true (Takes.pure rfl)
  · intro next _
    rw [lead_append]
    exact ty.notWord_lead_tokens _

theorem takes_readReturn {operand : Option Operand} (h : (ret operand).Writable) :
    Takes readReturn (ret operand).bodyTokens.tail (· = (ret operand).canonical) Ends := by
  cases operand with
  | none => exact Takes.takeIf (Takes.provided rfl (Takes.pure rfl))
  | some operand =>
    obtain ⟨hoperand, hvoid⟩ := h operand rfl
    have htokens : (ret (some operand)).bodyTokens.tail = operand.tokens ++ [] :=
      (List.append_nil _).symm
    refine Takes.takeIf_ne (Takes.otherwise Bool.false_ne_true ?_) ?_
    · rw [htokens]
      refine (Operand.takes_read hoperand).andThen ?_
      rintro _ rfl
      exact Takes.pure rfl
    · intro next _
      rw [htokens, List.append_nil, Operand.tokens, lead_append]
      exact Ty.lead_tokens_ne_void hvoid _

theorem takes_readLabel (label : String) :
    Takes Instruction.readLabel (labelTokens label) (· = label) Free :=
  Takes.expect (takes_localName label)

theorem takes_readBranch_label (target : String) :
    Takes readBranch (labelTokens target) (· = .branch target) Ends := by
  refine Takes.takeIf (Takes.provided rfl ?_)
  refine (takes_localName target).andThen ?_
  rintro _ rfl
  exact Takes.pure rfl

theorem takes_readBranch_if {condition : Value} (h : condition.Writable .bool)
    (onTrue onFalse : String) :
    Takes readBranch
      (Operand.tokens ⟨.bool, condition⟩ ++ .mark .comma ::
        (labelTokens onTrue ++ .mark .comma :: labelTokens onFalse))
      (· = .branchIf (condition.canonical .bool) onTrue onFalse) Ends := by
  refine Takes.takeIf_ne (Takes.otherwise Bool.false_ne_true ?_) ?_
  · rw [Operand.tokens, List.append_assoc]
    refine (Ty.takes_read_int 1).bind ?_ ?_
    · rintro _ rfl
      refine Takes.otherwise (not_not_intro rfl) ?_
      refine (Value.takes_read h).andThen ?_
      rintro _ rfl
      refine Takes.expect ?_
      refine (takes_readLabel onTrue).andThen ?_
      rintro onTrue rfl
      refine Takes.expect ?_
      refine (takes_readLabel onFalse).last ?_ fun _ _ => trivial
      rintro _ rfl
      exact Takes.pure rfl
    · intro next _
      rw [lead_append]
      exact ⟨Value.lead_tokens_ne rfl, Value.lead_tokens_ne rfl⟩
  · intro next _
    rw [Operand.tokens, lead_append, lead_append]
    exact Ty.lead_tokens_ne rfl

/-- A type of integers and two values of it. -/
theorem takes_readPair {width : UInt32} {lhs rhs : Value} (hlhs : lhs.Writable (.int width))
    (hrhs : rhs.Writable (.int width)) (word : String) :
    Takes (readPair word)
      (.intType width :: (lhs.tokens (.int width) ++ .mark .comma :: rhs.tokens (.int width)))
      (· = (width, lhs.canonical (.int width), rhs.canonical (.int width))) Free := by
  refine Takes.here fun start => ?_
  refine (Ty.takes_read_int width).bindOne ?_ ?_
  · rintro _ rfl
    refine (Value.takes_read hlhs).andThen ?_
    rintro _ rfl
    refine Takes.expect ?_
    refine (Value.takes_read hrhs).last ?_ fun _ _ => trivial
    rintro _ rfl
    exact Takes.pure rfl
  · intro next _
    rw [lead_append]
    exact ⟨Value.lead_tokens_ne rfl, Value.lead_tokens_ne rfl⟩

theorem takes_readCompare {predicate : Predicate} {width : UInt32} {lhs rhs : Value}
    (hlhs : lhs.Writable (.int width)) (hrhs : rhs.Writable (.int width)) (result : String) :
    Takes (readCompare (some result))
      (.word predicate.mnemonic :: .intType width ::
        (lhs.tokens (.int width) ++ .mark .comma :: rhs.tokens (.int width)))
      (· = (compare result predicate width lhs rhs).canonical) Ends := by
  refine Takes.peek?_cons ?_
  simp only [Predicate.ofMnemonic?_mnemonic]
  refine Takes.advance ?_
  refine (takes_readPair hlhs hrhs "icmp").last ?_ fun _ _ => trivial
  rintro _ rfl
  exact Takes.pure rfl

theorem takes_readBinary {op : BinaryOp} {width : UInt32} {lhs rhs : Value}
    (hlhs : lhs.Writable (.int width)) (hrhs : rhs.Writable (.int width)) (result : String) :
    Takes (readBinary (some result) op)
      (.intType width :: (lhs.tokens (.int width) ++ .mark .comma :: rhs.tokens (.int width)))
      (· = (binary result op width lhs rhs).canonical) Ends := by
  refine (takes_skipWords_ne isFlag).look ?_ (fun _ _ => by simp [NotWord, lead])
  intro _ _
  refine (takes_readPair hlhs hrhs op.mnemonic).last ?_ fun _ _ => trivial
  rintro _ rfl
  exact Takes.pure rfl

theorem takes_readConvert {conversion : Conversion} {source target : UInt32} {value : Value}
    (h : value.Writable (.int source)) (result : String) (start : Place) :
    Takes (readConvert (some result) conversion start)
      (.intType source :: (value.tokens (.int source) ++ .keyword .toWord :: [.intType target]))
      (· = (convert result conversion source value target).canonical) Ends := by
  refine Takes.takeIf_ne ?_ (fun _ _ => by simp [lead])
  refine (Ty.takes_read_int source).bindOne ?_ ?_
  · rintro _ rfl
    refine (Value.takes_read h).andThen ?_
    rintro _ rfl
    refine Takes.expect ?_
    refine (Ty.takes_read_int target).bindOne ?_ (fun _ hnext => hnext.2.2)
    rintro _ rfl
    exact Takes.pure rfl
  · intro next _
    rw [lead_append]
    exact ⟨Value.lead_tokens_ne rfl, Value.lead_tokens_ne rfl⟩

theorem takes_readSelect {condition onTrue onFalse : Value} {ty : Ty}
    (hcondition : condition.Writable .bool) (honTrue : Operand.Writable ⟨ty, onTrue⟩)
    (honFalse : Operand.Writable ⟨ty, onFalse⟩) (result : String) (start : Place) :
    Takes (readSelect (some result) start)
      (Operand.tokens ⟨.bool, condition⟩ ++ .mark .comma ::
        (Operand.tokens ⟨ty, onTrue⟩ ++ .mark .comma :: Operand.tokens ⟨ty, onFalse⟩))
      (· = (select result condition ty onTrue onFalse).canonical) Ends := by
  have hbool : Operand.Writable ⟨.bool, condition⟩ := ⟨trivial, hcondition⟩
  refine (Operand.takes_read hbool).andThen ?_
  rintro _ rfl
  refine Takes.otherwise (not_not_intro rfl) (Takes.expect ?_)
  refine (Operand.takes_read honTrue).andThen ?_
  rintro _ rfl
  refine Takes.expect ?_
  refine (Operand.takes_read honFalse).last ?_ fun _ _ => trivial
  rintro _ rfl
  exact Takes.otherwise (not_not_intro rfl) (Takes.pure rfl)

theorem takes_refuseResult (start : Place) :
    Takes (refuseResult none start) [] (fun _ => True) Free :=
  Takes.pure trivial

theorem readWord_binary (result : Option String) (start : Place) (op : BinaryOp) :
    readWord result start op.mnemonic = (Reading.advance >>= fun _ => readBinary result op) := by
  cases op <;> rfl

theorem readWord_convert (result : Option String) (start : Place) (conversion : Conversion) :
    readWord result start conversion.mnemonic =
      (Reading.advance >>= fun _ => readConvert result conversion start) := by
  cases conversion <;> rfl

/-- The body of an instruction is read back. -/
theorem takes_readBody {instruction : Instruction} (h : instruction.Writable) :
    Takes (readBody instruction.result?) instruction.bodyTokens (· = instruction.canonical)
      Ends := by
  refine Takes.here fun start => ?_
  cases instruction with
  | call result ty callee args => exact Takes.peek?_cons (takes_readCall h)
  | binary result op width lhs rhs =>
    refine Takes.peek?_cons ?_
    simp only [readWord_binary]
    exact Takes.advance (takes_readBinary h.1 h.2 result)
  | compare result predicate width lhs rhs =>
    exact Takes.peek?_cons (Takes.advance (takes_readCompare h.1 h.2 result))
  | convert result conversion source value target =>
    refine Takes.peek?_cons ?_
    simp only [readWord_convert]
    exact Takes.advance (takes_readConvert h result start)
  | select result condition ty onTrue onFalse =>
    exact Takes.peek?_cons (Takes.advance (takes_readSelect h.1 h.2.1 h.2.2 result start))
  | branch target =>
    refine Takes.peek?_cons ((takes_refuseResult start).look ?_ (fun _ _ => trivial))
    intro _ _
    exact Takes.advance (takes_readBranch_label target)
  | branchIf condition onTrue onFalse =>
    refine Takes.peek?_cons ((takes_refuseResult start).look ?_ (fun _ _ => trivial))
    intro _ _
    exact Takes.advance (takes_readBranch_if h onTrue onFalse)
  | ret operand =>
    have htokens : (ret operand).bodyTokens = .keyword .ret :: (ret operand).bodyTokens.tail := by
      cases operand <;> rfl
    rw [htokens]
    refine Takes.peek?_cons ((takes_refuseResult start).look ?_ (fun _ _ => trivial))
    intro _ _
    exact Takes.advance (takes_readReturn h)

theorem takes_readBinding (result : String) :
    Takes readBinding (bindingTokens result) (· = some result) Free := by
  refine Takes.peek?_cons (Takes.peekSecond?_cons ?_)
  refine Takes.advance (Takes.advance ?_)
  refine (takes_observe result).look ?_ (fun _ _ => trivial)
  intro _ _
  exact Takes.pure rfl

theorem takes_readBinding_ne :
    Takes readBinding [] (· = none) (fun next => ∀ name, next ≠ some (.localName name)) := by
  apply Takes.peek?
  intro token? hname
  apply Takes.peekSecond?
  intro second
  rw [lead_nil]
  split
  · exact absurd rfl (hname _)
  · exact Takes.pure rfl

theorem lead_bodyTokens_ne (instruction : Instruction) (next : Option Token) (name : String) :
    lead instruction.bodyTokens next ≠ some (.localName name) := by
  cases instruction with
  | ret operand => cases operand <;> simp [bodyTokens, lead]
  | _ => simp [bodyTokens, lead]

/-- An instruction is read back as the instruction that its text spells. -/
theorem takes_read {instruction : Instruction} (h : instruction.Writable) :
    Takes Instruction.read instruction.tokens (· = instruction.canonical) Ends := by
  have hbody : ∀ result, result = instruction.result? → Takes (do
      let body ← readBody result
      skipAttachments
      return body) instruction.bodyTokens (· = instruction.canonical) Ends := by
    rintro _ rfl
    refine (takes_readBody h).last ?_ (fun _ hnext => hnext)
    rintro _ rfl
    refine takes_skipAttachments_ne.look ?_ (fun _ hnext => hnext.1)
    intro _ _
    exact Takes.pure rfl
  rw [tokens]
  cases hresult : instruction.result? with
  | none =>
    rw [hresult] at hbody
    exact takes_readBinding_ne.look hbody fun next _ => instruction.lead_bodyTokens_ne next
  | some result =>
    rw [hresult] at hbody
    exact (takes_readBinding result).andThen hbody

end Instruction

end QuantumIR
