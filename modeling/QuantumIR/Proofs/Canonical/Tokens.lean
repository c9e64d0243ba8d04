import QuantumIR.Canonical
import QuantumIR.Proofs.Double.Constant
import QuantumIR.Proofs.Token.Names

/-!
The tokens that the canonical text of types, operands and instructions spells. The tokens are
told by recursion on what is written, and the text is cut into them wherever it stands.
-/

namespace QuantumIR

open Lexeme

namespace Lexeme

variable {after : List Char → Prop} {text text' : List Char}
  {tokens tokens' : List (Option Token)}

theorem Spells.cast (h : Spells after text tokens) (htext : text' = text)
    (htokens : tokens' = tokens) : Spells after text' tokens' := by
  subst htext
  subst htokens
  exact h

theorem Spells.nothing : Spells Closed [] [] := Spells.empty.weaken

/-- A blank between two texts ends a run of the first. -/
theorem Spells.blankThen (h : Spells Closed text tokens) (h' : Spells after text' tokens') :
    Spells after (text ++ ' ' :: text') (tokens ++ tokens') := by
  have hblank : Spells after (' ' :: text') tokens' := Spells.blank.then h'
  refine h.append hblank ?_
  intro post _
  exact closed_cons.mpr rfl

/-- A mark between two texts ends a run of the first. -/
theorem Spells.markThen (h : Spells Closed text tokens) (c : Char) {mark : Mark}
    (hmark : Mark.ofChar? c = some mark) (hclose : closes c)
    (h' : Spells after text' tokens') :
    Spells after (text ++ c :: text') (tokens ++ some (.mark mark) :: tokens') := by
  have hrest : Spells after (c :: text') (some (.mark mark) :: tokens') :=
    (Spells.mark c hmark).then h'
  refine h.append hrest ?_
  intro post _
  exact closed_cons.mpr hclose

theorem Spells.commaThen (h : Spells Closed text tokens) (h' : Spells after text' tokens') :
    Spells after (text ++ ',' :: ' ' :: text') (tokens ++ some (.mark .comma) :: tokens') :=
  h.markThen ',' rfl rfl (Spells.blank.then h')

/-- A plain word is a token of its own. -/
theorem Spells.plainWord {word : String} {c : Char} {rest : List Char}
    (heq : word.toList = c :: rest) (hc : Text.isLetter c ∨ c = '_')
    (hword : word.toList.all Cut.isWordChar)
    (hplain : Cut.wordToken? word.toList = some (.word word)) :
    Spells Closed word.toList [some (.word word)] := by
  rw [← hplain]
  exact Spells.word heq hc (List.all_eq_true.mp hword)

end Lexeme

namespace Token

/-- Rows of tokens with a comma between two of them. -/
def commaSeparated : List (List Token) → List Token
  | [] => []
  | [row] => row
  | row :: rows => row ++ .mark .comma :: commaSeparated rows

end Token

/-- Texts with commas between them spell their tokens with commas between them. -/
theorem Lexeme.Spells.commaSeparated {α : Type} {text : α → String} {tokens : α → List Token}
    (items : List α) (h : ∀ a ∈ items, Spells Closed (text a).toList ((tokens a).map some)) :
    Spells Closed (", ".intercalate (items.map text)).toList
      ((Token.commaSeparated (items.map tokens)).map some) := by
  induction items with
  | nil => exact Spells.nothing
  | cons a rest ih =>
    cases rest with
    | nil =>
      refine (h a List.mem_cons_self).cast ?_ rfl
      rw [List.map_singleton, String.intercalate_singleton]
    | cons b others =>
      have hrest := ih fun c hc => h c (List.mem_cons_of_mem a hc)
      refine ((h a List.mem_cons_self).commaThen hrest).cast ?_ ?_
      · rw [List.map_cons, List.map_cons, String.intercalate_cons_cons, String.toList_append,
          String.toList_append, List.append_assoc]
        rfl
      · rw [List.map_cons, List.map_cons, Token.commaSeparated, List.map_append]
        · rfl
        · exact List.cons_ne_nil _ _

/-- The tokens of a type. -/
def Ty.tokens : Ty → List Token
  | .void => [.keyword .void]
  | .int width => [.intType width]
  | .double => [.keyword .double]
  | .named name => [.localName name]
  | .pointer target => target.tokens ++ [.mark .star]
  | .ptr => [.keyword .ptr]
  | .array length element =>
    .mark .leftBracket :: .integer (Int64.ofNat length.toNat) :: .keyword .x ::
      (element.tokens ++ [.mark .rightBracket])

theorem Ty.spells (ty : Ty) : Spells Closed ty.text.toList (ty.tokens.map some) := by
  induction ty with
  | void => exact Spells.keyword .void
  | int width => exact Spells.intType width
  | double => exact Spells.keyword .double
  | named name => exact Spells.localName name
  | pointer target ih =>
    refine (ih.markThen '*' rfl rfl Spells.nothing).cast ?_ ?_
    · rw [Ty.text, String.toList_append]
      rfl
    · rw [Ty.tokens, List.map_append]
      rfl
  | ptr => exact Spells.keyword .ptr
  | array length element ih =>
    have hlength : Spells Closed (toString length.toNat).toList
        [some (.integer (Int64.ofNat length.toNat))] := Spells.natural length.toNat_lt
    have helement := ih.markThen ']' rfl rfl Spells.nothing
    have hcount := hlength.blankThen ((Spells.keyword .x).blankThen helement)
    refine ((Spells.mark '[' rfl).then hcount).cast ?_ ?_
    · simp only [Ty.text, String.toList_append, List.append_assoc]
      rfl
    · simp only [Ty.tokens, List.map_cons, List.map_append]
      rfl

theorem Lexeme.Spells.i64 : Spells Closed "i64".toList [some (.intType 64)] :=
  Spells.intType 64

/-- The tokens of a value where its type is `ty`. -/
def Value.tokens (value : Value) (ty : Ty) : List Token :=
  match value with
  | .reg name => [.localName name]
  | .int n =>
    if ty = .bool then [.keyword (if n = 0 then .falseWord else .trueWord)] else [.integer n]
  | .double x => [.float x]
  | .null => [.keyword .null]
  | .address n =>
    [.keyword .inttoptr, .mark .leftParen, .intType 64, .integer n, .keyword .toWord] ++
      ty.tokens ++ [.mark .rightParen]
  | .global name => [.globalName name]
  | .firstByte name length =>
    let array := (Ty.array length (.int 8)).tokens
    [.keyword .getelementptr, .word "inbounds", .mark .leftParen] ++ array ++ [.mark .comma] ++
      array ++ [.mark .star, .globalName name, .mark .comma, .intType 64, .integer 0, .mark .comma,
        .intType 64, .integer 0, .mark .rightParen]

theorem Ty.toList_bytes (length : UInt64) : (Ty.array length (.int 8)).text.toList =
    '[' :: ((toString length.toNat).toList ++ " x i8]".toList) := by
  have hbyte : (toString (UInt32.toNat 8)).toList = ['8'] := rfl
  simp only [Ty.text, hbyte, String.toList_append, String.reduceToList, List.append_assoc,
    List.cons_append, List.nil_append]

theorem Value.spells (value : Value) (ty : Ty) :
    Spells Closed (value.text ty).toList ((value.tokens ty).map some) := by
  cases value with
  | reg name => exact Spells.localName name
  | int n =>
    have htext : (Value.int n).text ty =
        if ty = .bool then (if n = 0 then "false" else "true") else toString n.toInt := rfl
    have htokens : (Value.int n).tokens ty =
        if ty = .bool then [.keyword (if n = 0 then .falseWord else .trueWord)]
        else [.integer n] := rfl
    rw [htext, htokens]
    by_cases hty : ty = .bool
    · rw [if_pos hty, if_pos hty]
      by_cases hn : n = 0
      · rw [if_pos hn, if_pos hn]
        exact Spells.keyword .falseWord
      · rw [if_neg hn, if_neg hn]
        exact Spells.keyword .trueWord
    · rw [if_neg hty, if_neg hty]
      exact Spells.integer n
  | double x => exact Spells.float x
  | null => exact Spells.keyword .null
  | address n =>
    have hindex := Spells.i64.blankThen ((Spells.integer n).blankThen
      ((Spells.keyword .toWord).blankThen (ty.spells.markThen ')' rfl rfl Spells.nothing)))
    have hword := (Spells.keyword .inttoptr).blankThen ((Spells.mark '(' rfl).then hindex)
    have htext : (Value.address n).text ty =
        "inttoptr (i64 " ++ toString n.toInt ++ " to " ++ ty.text ++ ")" := rfl
    refine hword.cast ?_ ?_
    · simp only [htext, Keyword.text, String.toList_append, String.reduceToList,
        List.append_assoc, List.cons_append, List.nil_append]
    · simp only [Value.tokens, List.map_append, List.append_assoc]
      rfl
  | global name => exact Spells.globalName name
  | firstByte name length =>
    have harray := (Ty.array length (.int 8)).spells
    have hzero : Spells Closed "0".toList [some (.integer 0)] := Spells.integer 0
    have hlast := Spells.i64.blankThen (hzero.markThen ')' rfl rfl Spells.nothing)
    have hindices := Spells.i64.blankThen (hzero.commaThen hlast)
    have hpointer := harray.markThen '*' rfl rfl
      (Spells.blank.then ((Spells.globalName name).commaThen hindices))
    have hinbounds : Spells Closed "inbounds".toList [some (.word "inbounds")] :=
      Spells.plainWord rfl (Or.inl rfl) rfl rfl
    have hword := (Spells.keyword .getelementptr).blankThen
      (hinbounds.blankThen ((Spells.mark '(' rfl).then (harray.commaThen hpointer)))
    have htext : (Value.firstByte name length).text ty = "getelementptr inbounds (" ++
        ("[" ++ toString length.toNat ++ " x i8]") ++ ", " ++
          ("[" ++ toString length.toNat ++ " x i8]") ++ "* @" ++ Text.formatName name ++
            ", i64 0, i64 0)" := rfl
    refine hword.cast ?_ ?_
    · simp only [htext, Ty.toList_bytes, Keyword.text, String.toList_append, String.reduceToList,
        List.append_assoc, List.cons_append, List.nil_append]
    · simp only [Value.tokens, List.map_append, List.append_assoc]
      rfl

def Operand.tokens (operand : Operand) : List Token :=
  operand.ty.tokens ++ operand.value.tokens operand.ty

theorem Operand.spells (operand : Operand) :
    Spells Closed operand.text.toList (operand.tokens.map some) := by
  refine (operand.ty.spells.blankThen (operand.value.spells operand.ty)).cast ?_ ?_
  · rw [Operand.text, String.toList_append, String.toList_append, List.append_assoc]
    rfl
  · rw [Operand.tokens, List.map_append]

end QuantumIR
