import QuantumIR.Proofs.Canonical.Tokens

/-!
The tokens that the canonical text of instructions and blocks spells.
-/

namespace QuantumIR

open Lexeme

theorem BinaryOp.spells (op : BinaryOp) :
    Spells Closed op.mnemonic.toList [some (.word op.mnemonic)] := by
  cases op <;> exact Spells.plainWord rfl (Or.inl rfl) rfl rfl

theorem Predicate.spells (predicate : Predicate) :
    Spells Closed predicate.mnemonic.toList [some (.word predicate.mnemonic)] := by
  cases predicate <;> exact Spells.plainWord rfl (Or.inl rfl) rfl rfl

theorem Conversion.spells (conversion : Conversion) :
    Spells Closed conversion.mnemonic.toList [some (.word conversion.mnemonic)] := by
  cases conversion <;> exact Spells.plainWord rfl (Or.inl rfl) rfl rfl

namespace Instruction

/-- The tokens of a register and the equals sign after it. -/
def bindingTokens (result : String) : List Token := [.localName result, .mark .equals]

def labelTokens (label : String) : List Token := [.keyword .label, .localName label]

/-- The tokens of an instruction without the register it binds. -/
def bodyTokens : Instruction → List Token
  | call _ ty callee args =>
    .keyword .call :: (ty.tokens ++ .globalName callee :: .mark .leftParen ::
      (Token.commaSeparated (args.map Operand.tokens) ++ [.mark .rightParen]))
  | binary _ op width lhs rhs =>
    .word op.mnemonic :: .intType width ::
      (lhs.tokens (.int width) ++ .mark .comma :: rhs.tokens (.int width))
  | compare _ predicate width lhs rhs =>
    .keyword .icmp :: .word predicate.mnemonic :: .intType width ::
      (lhs.tokens (.int width) ++ .mark .comma :: rhs.tokens (.int width))
  | convert _ conversion source value target =>
    .word conversion.mnemonic :: .intType source ::
      (value.tokens (.int source) ++ .keyword .toWord :: [.intType target])
  | select _ condition ty onTrue onFalse =>
    .keyword .select :: (Operand.tokens ⟨.bool, condition⟩ ++ .mark .comma ::
      (Operand.tokens ⟨ty, onTrue⟩ ++ .mark .comma :: Operand.tokens ⟨ty, onFalse⟩))
  | branch target => .keyword .br :: labelTokens target
  | branchIf condition onTrue onFalse =>
    .keyword .br :: (Operand.tokens ⟨.bool, condition⟩ ++ .mark .comma ::
      (labelTokens onTrue ++ .mark .comma :: labelTokens onFalse))
  | ret none => [.keyword .ret, .keyword .void]
  | ret (some operand) => .keyword .ret :: operand.tokens

/-- The tokens of an instruction. -/
def tokens (instruction : Instruction) : List Token :=
  (instruction.result?.map bindingTokens).getD [] ++ instruction.bodyTokens

theorem spells_binding {after : List Char → Prop} {text : List Char}
    {tokens : List (Option Token)} (result : String) (h : Spells after text tokens) :
    Spells after ((bindingText result).toList ++ text)
      ((bindingTokens result).map some ++ tokens) := by
  have hequals : Spells after ('=' :: ' ' :: text) (some (.mark .equals) :: tokens) :=
    (Spells.mark '=' rfl).then (Spells.blank.then h)
  refine ((Spells.localName result).blankThen hequals).cast ?_ rfl
  simp only [bindingText, String.toList_append, String.reduceToList, List.append_assoc,
    List.cons_append, List.nil_append]

theorem spells_label (label : String) :
    Spells Closed (labelText label).toList ((labelTokens label).map some) := by
  refine ((Spells.keyword .label).blankThen (Spells.localName label)).cast ?_ rfl
  simp only [labelText, Keyword.text, String.toList_append, String.reduceToList,
    List.cons_append, List.nil_append]

theorem toList_bool : Ty.bool.text.toList = ['i', '1'] := rfl

theorem spells_call (ty : Ty) (callee : String) (args : List Operand) :
    Spells Closed ("call " ++ ty.text ++ " @" ++ Text.formatName callee ++ "(" ++
        ", ".intercalate (args.map Operand.text) ++ ")").toList
      ((bodyTokens (.call none ty callee args)).map some) := by
  have hargs := (Spells.commaSeparated args fun a _ => a.spells).markThen ')' rfl rfl
    Spells.nothing
  have hcallee := (Spells.globalName callee).markThen '(' rfl rfl hargs
  refine ((Spells.keyword .call).blankThen (ty.spells.blankThen hcallee)).cast ?_ ?_
  · simp only [Keyword.text, String.toList_append, String.reduceToList, List.append_assoc,
      List.cons_append, List.nil_append]
  · simp only [bodyTokens, List.map_cons, List.map_append]
    rfl

/-- A type of integers and two values of it. -/
theorem spells_pair (width : UInt32) (lhs rhs : Value) :
    Spells Closed ((Ty.int width).text ++ " " ++ lhs.text (.int width) ++ ", " ++
        rhs.text (.int width)).toList
      (some (.intType width) :: ((lhs.tokens (.int width)).map some ++
        some (.mark .comma) :: (rhs.tokens (.int width)).map some)) := by
  have hpair := (lhs.spells (.int width)).commaThen (rhs.spells (.int width))
  refine ((Ty.int width).spells.blankThen hpair).cast ?_ rfl
  simp only [String.toList_append, String.reduceToList, List.append_assoc, List.cons_append,
    List.nil_append]

theorem spells_select (condition : Value) (ty : Ty) (onTrue onFalse : Value) :
    Spells Closed ("select i1 " ++ condition.text .bool ++ ", " ++ ty.text ++ " " ++
        onTrue.text ty ++ ", " ++ ty.text ++ " " ++ onFalse.text ty).toList
      ((bodyTokens (.select "" condition ty onTrue onFalse)).map some) := by
  have hvalues := (Operand.spells ⟨ty, onTrue⟩).commaThen (Operand.spells ⟨ty, onFalse⟩)
  refine ((Spells.keyword .select).blankThen
    ((Operand.spells ⟨.bool, condition⟩).commaThen hvalues)).cast ?_ ?_
  · simp only [Operand.text, Keyword.text, toList_bool, String.toList_append, String.reduceToList,
      List.append_assoc, List.cons_append, List.nil_append]
  · simp only [bodyTokens, List.map_cons, List.map_append]
    rfl

theorem spells_branchIf (condition : Value) (onTrue onFalse : String) :
    Spells Closed ("br i1 " ++ condition.text .bool ++ ", " ++ labelText onTrue ++ ", " ++
        labelText onFalse).toList
      ((bodyTokens (.branchIf condition onTrue onFalse)).map some) := by
  have hlabels := (spells_label onTrue).commaThen (spells_label onFalse)
  refine ((Spells.keyword .br).blankThen
    ((Operand.spells ⟨.bool, condition⟩).commaThen hlabels)).cast ?_ ?_
  · simp only [Operand.text, Keyword.text, toList_bool, String.toList_append, String.reduceToList,
      List.append_assoc, List.cons_append, List.nil_append]
  · simp only [bodyTokens, List.map_cons, List.map_append]
    rfl

/-- The text of an instruction spells its tokens. -/
theorem spells (instruction : Instruction) :
    Spells Closed instruction.text.toList (instruction.tokens.map some) := by
  cases instruction with
  | call result ty callee args =>
    have hbody := spells_call ty callee args
    have htext : (call result ty callee args).text = (result.map bindingText).getD "" ++ "call " ++
        ty.text ++ " @" ++ Text.formatName callee ++ "(" ++
          ", ".intercalate (args.map Operand.text) ++ ")" := rfl
    cases result with
    | none =>
      refine hbody.cast ?_ rfl
      simp only [htext, Option.map_none, Option.getD_none, String.toList_append,
        String.reduceToList, List.nil_append]
    | some name =>
      refine (spells_binding name hbody).cast ?_ rfl
      simp only [htext, Option.map_some, Option.getD_some, String.toList_append, List.append_assoc]
  | binary result op width lhs rhs =>
    have hbody := spells_binding result (op.spells.blankThen (spells_pair width lhs rhs))
    have htext : (binary result op width lhs rhs).text = bindingText result ++ op.mnemonic ++ " " ++
        (Ty.int width).text ++ " " ++ lhs.text (.int width) ++ ", " ++ rhs.text (.int width) := rfl
    refine hbody.cast ?_ ?_
    · simp only [htext, String.toList_append, String.reduceToList, List.append_assoc,
        List.cons_append, List.nil_append]
    · simp only [tokens, bodyTokens, result?, Option.map_some, Option.getD_some, List.map_append,
        List.map_cons, List.cons_append, List.nil_append]
  | compare result predicate width lhs rhs =>
    have hpair := predicate.spells.blankThen (spells_pair width lhs rhs)
    have hbody := spells_binding result ((Spells.keyword .icmp).blankThen hpair)
    have htext : (compare result predicate width lhs rhs).text = bindingText result ++ "icmp " ++
        predicate.mnemonic ++ " " ++ (Ty.int width).text ++ " " ++ lhs.text (.int width) ++ ", " ++
          rhs.text (.int width) := rfl
    refine hbody.cast ?_ ?_
    · simp only [htext, Keyword.text, String.toList_append, String.reduceToList,
        List.append_assoc, List.cons_append, List.nil_append]
    · simp only [tokens, bodyTokens, result?, Option.map_some, Option.getD_some, List.map_append,
        List.map_cons, List.cons_append, List.nil_append]
  | convert result conversion source value target =>
    have hvalue := (value.spells (.int source)).blankThen
      ((Spells.keyword .toWord).blankThen (Ty.int target).spells)
    have hbody := spells_binding result
      (conversion.spells.blankThen ((Ty.int source).spells.blankThen hvalue))
    have htext : (convert result conversion source value target).text = bindingText result ++
        conversion.mnemonic ++ " " ++ (Ty.int source).text ++ " " ++ value.text (.int source) ++
          " to " ++ (Ty.int target).text := rfl
    refine hbody.cast ?_ ?_
    · simp only [htext, Keyword.text, String.toList_append, String.reduceToList,
        List.append_assoc, List.cons_append, List.nil_append]
    · simp only [tokens, bodyTokens, result?, Ty.tokens, Option.map_some, Option.getD_some,
        List.map_append, List.map_cons, List.map_nil, List.cons_append, List.nil_append]
  | select result condition ty onTrue onFalse =>
    have htext : (select result condition ty onTrue onFalse).text = bindingText result ++
        "select i1 " ++ condition.text .bool ++ ", " ++ ty.text ++ " " ++ onTrue.text ty ++ ", " ++
          ty.text ++ " " ++ onFalse.text ty := rfl
    refine (spells_binding result (spells_select condition ty onTrue onFalse)).cast ?_ ?_
    · simp only [htext, String.toList_append, List.append_assoc]
    · simp only [tokens, bodyTokens, result?, Option.map_some, Option.getD_some, List.map_append]
  | branch target =>
    have htext : (branch target).text = "br " ++ labelText target := rfl
    refine ((Spells.keyword .br).blankThen (spells_label target)).cast ?_ rfl
    simp only [htext, Keyword.text, String.toList_append, String.reduceToList, List.cons_append,
      List.nil_append]
  | branchIf condition onTrue onFalse => exact spells_branchIf condition onTrue onFalse
  | ret operand =>
    cases operand with
    | none =>
      have htext : (ret none).text = "ret void" := rfl
      refine ((Spells.keyword .ret).blankThen (Spells.keyword .void)).cast ?_ rfl
      simp only [htext, Keyword.text, String.reduceToList, List.cons_append, List.nil_append]
    | some operand =>
      have htext : (ret (some operand)).text = "ret " ++ operand.text := rfl
      refine ((Spells.keyword .ret).blankThen operand.spells).cast ?_ rfl
      simp only [htext, Keyword.text, String.toList_append, String.reduceToList, List.cons_append,
        List.nil_append]

end Instruction

end QuantumIR
