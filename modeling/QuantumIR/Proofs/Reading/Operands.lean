import QuantumIR.Proofs.Canonical.Tokens
import QuantumIR.Proofs.Reading.Taking
import QuantumIR.Reading.Operand

/-!
Types and operands are read back from the tokens of their canonical text. Two constants come back
as others: at the type of truth values only zero is false, and at the type of doubles an integer
is the double of that value.
-/

namespace QuantumIR

namespace Reading

variable {α β : Type} {follow : Option Token → Prop}

/-- Items between commas are read one by one, each to what it stands for. -/
theorem takes_commaSeparated {item : Reading β} {write : α → List Token} {read : α → β}
    {expected : Expected} {items : List α} (hne : items ≠ [])
    (h : ∀ a ∈ items, Takes item (write a) (· = read a) follow)
    (hcomma : follow (some (.mark .comma))) :
    Takes (commaSeparated expected item) (Token.commaSeparated (items.map write))
      (· = items.map read) (fun next => follow next ∧ next ≠ some (.mark .comma)) := by
  -- the items read so far stand before those to come
  suffices hloop : ∀ before, Takes (loop expected (readItem item) before >>= pure)
      (Token.commaSeparated (items.map write)) (· = before ++ items.map read)
      (fun next => follow next ∧ next ≠ some (.mark .comma)) by
    have := hloop []
    rwa [bind_pure] at this
  induction items with
  | nil => exact absurd rfl hne
  | cons a rest ih =>
    intro before
    have ha := h a List.mem_cons_self
    cases rest with
    | nil =>
      rw [bind_pure, List.map_singleton, Token.commaSeparated]
      apply Takes.loop_last
      refine ha.last ?_ (fun _ hnext => hnext.1)
      rintro _ rfl
      refine Takes.takeIf_ne ?_ (fun _ hnext => hnext.2)
      exact Takes.otherwise Bool.false_ne_true (Takes.pure ⟨_, rfl, by simp⟩)
    | cons b others =>
      have htokens : Token.commaSeparated ((a :: b :: others).map write) =
          (write a ++ [.mark .comma]) ++ Token.commaSeparated ((b :: others).map write) := by
        rw [List.map_cons, List.map_cons, Token.commaSeparated, List.append_assoc]
        · rfl
        · exact List.cons_ne_nil _ _
      have hstep : Takes (readItem item before) (write a ++ [.mark .comma])
          (fun after => ∃ items, after = .inl items ∧ items = before ++ [read a]) Free := by
        refine ha.bind ?_ ?_
        · rintro _ rfl
          exact Takes.takeIf (Takes.provided rfl (Takes.pure ⟨_, rfl, rfl⟩))
        · exact fun _ _ => hcomma
      rw [htokens]
      refine Takes.loop_step (by simp) hstep ?_ (fun _ _ => trivial)
      rintro _ rfl
      have hrest := ih (List.cons_ne_nil b others) (fun c hc => h c (List.mem_cons_of_mem a hc))
        (before ++ [read a])
      refine hrest.weaken ?_ (fun _ hnext => hnext)
      rintro _ rfl
      simp

/-- Items in parentheses, none of which starts with the closing one. -/
theorem takes_parenthesized {item : Reading β} {write : α → List Token} {read : α → β}
    {items : List α} (h : ∀ a ∈ items, Takes item (write a) (· = read a) follow)
    (hcomma : follow (some (.mark .comma))) (hparen : follow (some (.mark .rightParen)))
    (hlead : ∀ a ∈ items, ∀ next, lead (write a) next ≠ some (.mark .rightParen)) :
    Takes (parenthesized item)
      (.mark .leftParen :: (Token.commaSeparated (items.map write) ++ [.mark .rightParen]))
      (· = items.map read) Free := by
  refine Takes.expect ?_
  cases items with
  | nil => exact Takes.takeIf (Takes.provided rfl (Takes.pure rfl))
  | cons a rest =>
    refine Takes.takeIf_ne (Takes.otherwise Bool.false_ne_true ?_) ?_
    · refine (takes_commaSeparated (List.cons_ne_nil a rest) h hcomma).bind ?_ ?_
      · rintro _ rfl
        exact Takes.expect (Takes.pure rfl)
      · exact fun _ _ => ⟨hparen, by simp [lead]⟩
    · intro next _
      obtain ⟨others, hothers⟩ : ∃ others,
          Token.commaSeparated ((a :: rest).map write) = write a ++ others := by
        cases rest with
        | nil => exact ⟨[], (List.append_nil _).symm⟩
        | cons b more => exact ⟨_, rfl⟩
      rw [hothers, List.append_assoc, lead_append]
      exact hlead a List.mem_cons_self _

end Reading

namespace Ty

open Reading

/-- All lengths are those of arrays that can be written. -/
def Sized : Ty → Prop
  | pointer target => target.Sized
  | array length element => length.toNat < 2 ^ 63 ∧ element.Sized
  | _ => True

instance decidableSized : (ty : Ty) → Decidable ty.Sized
  | pointer target => decidableSized target
  | array length element =>
    haveI := decidableSized element
    inferInstanceAs (Decidable (length.toNat < 2 ^ 63 ∧ element.Sized))
  | void | int _ | double | named _ | ptr => isTrue trivial

/-- The tokens that a type starts with. -/
def opens : Token → Bool
  | .keyword .void | .keyword .double | .keyword .ptr | .intType _ | .localName _
  | .mark .leftBracket => true
  | _ => false

theorem lead_tokens (ty : Ty) (next : Option Token) :
    ∃ token, lead ty.tokens next = some token ∧ opens token := by
  induction ty generalizing next with
  | pointer target ih =>
    rw [tokens, lead_append]
    exact ih _
  | _ => exact ⟨_, rfl, rfl⟩

theorem lead_tokens_ne {ty : Ty} {token : Token} {next : Option Token}
    (h : opens token = false) : lead ty.tokens next ≠ some token :=
  lead_ne (ty.lead_tokens next) h

theorem notWord_lead_tokens (ty : Ty) (next : Option Token) : NotWord (lead ty.tokens next) :=
  fun _ => lead_tokens_ne rfl

/-- What may follow any type: neither a star nor an address space. -/
def Ends (next : Option Token) : Prop :=
  next ≠ some (.mark .star) ∧ next ≠ some (.word "addrspace")

/-- What may follow a type: no star, and no address space after a pointer that does not say what it
points to. -/
def MayFollow (ty : Ty) (next : Option Token) : Prop :=
  next ≠ some (.mark .star) ∧ (ty = ptr → next ≠ some (.word "addrspace"))

theorem takes_readOpening_ne (openings : List UInt64) :
    Takes (readOpening openings) [] (fun after => ∃ all, after = .inr all ∧ all = openings)
      (· ≠ some (.mark .leftBracket)) :=
  Takes.takeIf_ne (Takes.otherwise Bool.false_ne_true (Takes.pure ⟨_, rfl, rfl⟩)) fun _ h => h

theorem takes_readOpening {length : UInt64} (h : length.toNat < 2 ^ 63) (openings : List UInt64) :
    Takes (readOpening openings)
      [.mark .leftBracket, .integer (Int64.ofNat length.toNat), .keyword .x]
      (fun after => ∃ more, after = .inl more ∧ more = length :: openings) Free := by
  have hsign : ¬Int64.ofNat length.toNat < 0 := by
    rw [Int64.lt_iff_toInt_lt, Int64.toInt_ofNat_of_lt h]
    simp
  have hlength : (Int64.ofNat length.toNat).toUInt64 = length := by
    rw [Int64.toUInt64_ofNat', UInt64.ofNat_toNat]
  refine Takes.takeIf (Takes.provided rfl ?_)
  refine (takes_integer _).andThen ?_
  rintro _ rfl
  refine Takes.otherwise hsign ?_
  refine (takes_expect _).andThen ?_
  intro _ _
  rw [hlength]
  exact Takes.pure ⟨_, rfl, rfl⟩

theorem takes_readStar_ne (ty : Ty) :
    Takes (readStar ty) [] (fun after => ∃ all, after = .inr all ∧ all = ty)
      (· ≠ some (.mark .star)) :=
  Takes.takeIf_ne (Takes.otherwise Bool.false_ne_true (Takes.pure ⟨_, rfl, rfl⟩)) fun _ h => h

theorem takes_readStar (ty : Ty) :
    Takes (readStar ty) [.mark .star] (fun after => ∃ more, after = .inl more ∧ more = .pointer ty)
      Free :=
  Takes.takeIf (Takes.provided rfl (Takes.pure ⟨_, rfl, rfl⟩))

theorem takes_readStars_ne (ty : Ty) :
    Takes (readStars ty) [] (· = ty) (· ≠ some (.mark .star)) :=
  Takes.loop_last (takes_readStar_ne ty)

/-- Whether a type is neither a pointer with a target nor an array. -/
def isBase : Ty → Bool
  | pointer _ | array .. => false
  | _ => true

theorem takes_readBase {ty : Ty} (h : ty.isBase) :
    Takes readBase ty.tokens (· = ty) (fun next => ty = ptr → next ≠ some (.word "addrspace")) := by
  cases ty with
  | ptr =>
    refine Takes.peek?_cons (Takes.advance ?_)
    refine Takes.isNext_ne ?_ (fun _ h => h rfl)
    exact Takes.otherwise Bool.false_ne_true (Takes.pure rfl)
  | pointer _ => exact absurd h Bool.false_ne_true
  | array _ _ => exact absurd h Bool.false_ne_true
  | _ => exact Takes.peek?_cons (Takes.advance (Takes.pure rfl))

variable {β : Type} {tokens : List Token} {result : β → Prop} {follow : Option Token → Prop}

/-- What is left of reading a type after some openings of arrays. -/
def readOpened (openings : List UInt64) : Reading Ty := do
  let openings ← loop .ty readOpening openings
  let base ← readBase
  readArrayClosings openings (← readStars base)

theorem takes_readOpened_base {ty : Ty} (hbase : ty.isBase) {openings : List UInt64}
    {result : Ty → Prop} (h : Takes (readStars ty >>= readArrayClosings openings) tokens result
      follow)
    (hfollow : ∀ next, follow next → ty = ptr → lead tokens next ≠ some (.word "addrspace")) :
    Takes (readOpened openings) (ty.tokens ++ tokens) result follow := by
  refine (Takes.loop_last (takes_readOpening_ne openings)).look ?_ ?_
  · rintro _ rfl
    refine (takes_readBase hbase).bind ?_ hfollow
    rintro _ rfl
    exact h
  · intro next _
    cases ty with
    | pointer _ => exact absurd hbase Bool.false_ne_true
    | array _ _ => exact absurd hbase Bool.false_ne_true
    | _ => simp [Ty.tokens, lead]

/-- Reading a type leads to where the stars after it and the closings around it are read. -/
theorem takes_readOpened {ty : Ty} (hsized : ty.Sized) {openings : List UInt64}
    {result : Ty → Prop} (h : Takes (readStars ty >>= readArrayClosings openings) tokens result
      follow)
    (hfollow : ∀ next, follow next → ty = ptr → lead tokens next ≠ some (.word "addrspace")) :
    Takes (readOpened openings) (ty.tokens ++ tokens) result follow := by
  induction ty generalizing openings tokens with
  | pointer target ih =>
    rw [Ty.tokens, List.append_assoc]
    refine ih hsized ?_ (fun _ _ => by simp [lead])
    refine Takes.loop_step (List.cons_ne_nil _ _) (takes_readStar target) ?_ (fun _ _ => trivial)
    rintro _ rfl
    exact h
  | array length element ih =>
    have hinner : Takes (readStars element >>= readArrayClosings (length :: openings))
        (.mark .rightBracket :: tokens) result follow := by
      refine (takes_readStars_ne element).look ?_ (fun _ _ => by simp [lead])
      rintro _ rfl
      exact Takes.expect h
    have helement := ih hsized.2 hinner (fun _ _ => by simp [lead])
    have htokens : (array length element).tokens ++ tokens =
        [.mark .leftBracket, .integer (Int64.ofNat length.toNat), .keyword .x] ++
          (element.tokens ++ .mark .rightBracket :: tokens) := by
      simp [Ty.tokens]
    rw [htokens]
    refine Takes.loop_step (List.cons_ne_nil _ _) (takes_readOpening hsized.1 openings) ?_
      (fun _ _ => trivial)
    rintro _ rfl
    exact helement
  | _ => exact takes_readOpened_base rfl h hfollow

/-- A type is read back, up to the first token that may follow it. -/
theorem takes_read_mayFollow {ty : Ty} (h : ty.Sized) :
    Takes Ty.read ty.tokens (· = ty) ty.MayFollow := by
  have hclosings : Takes (readStars ty >>= readArrayClosings []) [] (· = ty) ty.MayFollow := by
    refine (takes_readStars_ne ty).look ?_ (fun _ hnext => hnext.1)
    rintro _ rfl
    exact Takes.pure rfl
  have hread := takes_readOpened h hclosings (fun _ hnext => hnext.2)
  rwa [List.append_nil] at hread

theorem takes_read {ty : Ty} (h : ty.Sized) : Takes Ty.read ty.tokens (· = ty) Ends :=
  (takes_read_mayFollow h).before fun _ hnext => ⟨hnext.1, fun _ => hnext.2⟩

theorem takes_read_int (width : UInt32) : Takes Ty.read [.intType width] (· = .int width) Ends := by
  have hsized : (int width).Sized := trivial
  exact takes_read hsized

end Ty

namespace Value

open Reading

/-- The value that the text of a value of a type spells. -/
def canonical (value : Value) (ty : Ty) : Value :=
  match value with
  | .int n =>
    if ty = .bool then .int (if n = 0 then 0 else 1)
    else if ty.isDouble then .double (.ofInt n.toInt) else .int n
  | value => value

/-- Whether the text of a value of a type spells a value of that type. -/
def Writable (value : Value) (ty : Ty) : Prop :=
  match value with
  | .double _ => ty.isDouble
  | .address _ => ty.Sized
  | .firstByte _ length => length.toNat < 2 ^ 63
  | _ => True

theorem takes_readAddress {ty : Ty} (h : ty.Sized) (n : Int64) :
    Takes readAddress
      (.mark .leftParen :: .intType 64 :: .integer n :: .keyword .toWord ::
        (ty.tokens ++ [.mark .rightParen]))
      (· = .address n) Free := by
  refine Takes.expect ?_
  refine (Ty.takes_read_int 64).bind ?_ (fun _ _ => by simp [Ty.Ends, lead])
  rintro _ rfl
  refine Takes.otherwise Bool.false_ne_true ?_
  refine (takes_integer n).andThen ?_
  rintro _ rfl
  refine Takes.expect ?_
  refine (Ty.takes_read h).bind ?_ (fun _ _ => by simp [Ty.Ends, lead])
  intro _ _
  exact Takes.expect (Takes.pure rfl)

def zeroIndexTokens : List Token := [.mark .comma, .intType 64, .integer 0]

/-- The tokens of a pointer to the first byte of a global string, after the first of them. -/
def firstByteTokens (name : String) (length : UInt64) : List Token :=
  let array := Ty.array length (.int 8)
  let indices := zeroIndexTokens ++ (zeroIndexTokens ++ [Token.mark .rightParen])
  let pointer := (Ty.pointer array).tokens ++ Token.globalName name :: indices
  Token.word "inbounds" :: Token.mark .leftParen :: (array.tokens ++ Token.mark .comma :: pointer)

theorem takes_readZeroIndex (start : Place) :
    Takes (readZeroIndex start) zeroIndexTokens (fun _ => True) Free := by
  refine Takes.expect ?_
  refine (Ty.takes_read_int 64).bind ?_ (fun _ _ => by simp [Ty.Ends, lead])
  rintro _ rfl
  refine Takes.otherwise Bool.false_ne_true ?_
  refine (takes_integer 0).andThen ?_
  rintro _ rfl
  exact Takes.otherwise (not_not_intro rfl) (Takes.pure trivial)

theorem takes_readFirstByte {length : UInt64} (h : length.toNat < 2 ^ 63) (name : String)
    (start : Place) :
    Takes (readFirstByte start) (firstByteTokens name length) (· = .firstByte name length)
      Free := by
  have harray : (Ty.array length (.int 8)).Sized := ⟨h, trivial⟩
  have hpointer : (Ty.pointer (.array length (.int 8))).Sized := harray
  refine Takes.takeIf (Takes.expect ?_)
  refine (Ty.takes_read harray).bind ?_ (fun _ _ => by simp [Ty.Ends, lead])
  rintro _ rfl
  refine Takes.expect ?_
  refine (Ty.takes_read hpointer).bind ?_ (fun _ _ => by simp [Ty.Ends, lead])
  rintro _ rfl
  refine Takes.otherwise Bool.false_ne_true ?_
  refine (takes_globalName name).andThen ?_
  rintro _ rfl
  refine (takes_readZeroIndex start).andThen ?_
  intro _ _
  refine (takes_readZeroIndex start).andThen ?_
  intro _ _
  exact Takes.expect (Takes.pure rfl)

/-- A value is read back as the value that its text spells. -/
theorem takes_read {value : Value} {ty : Ty} (h : value.Writable ty) :
    Takes (Value.read ty) (value.tokens ty) (· = value.canonical ty) Free := by
  cases value with
  | int n =>
    have htokens : (Value.int n).tokens ty =
        if ty = .bool then [.keyword (if n = 0 then .falseWord else .trueWord)]
        else [.integer n] := rfl
    have hcanonical : (Value.int n).canonical ty =
        if ty = .bool then .int (if n = 0 then 0 else 1)
        else if ty.isDouble then .double (.ofInt n.toInt) else .int n := rfl
    rw [htokens, hcanonical]
    by_cases hty : ty = .bool
    · rw [if_pos hty, if_pos hty]
      by_cases hn : n = 0
      · rw [if_pos hn, if_pos hn]
        exact Takes.peek?_cons (Takes.advance (Takes.pure rfl))
      · rw [if_neg hn, if_neg hn]
        exact Takes.peek?_cons (Takes.advance (Takes.pure rfl))
    · rw [if_neg hty, if_neg hty]
      exact Takes.peek?_cons (Takes.advance (Takes.pure rfl))
  | double x =>
    have hdouble : ty.isDouble = true := h
    exact Takes.peek?_cons (Takes.provided hdouble (Takes.advance (Takes.pure rfl)))
  | address n =>
    have htokens : (Value.address n).tokens ty = .keyword .inttoptr :: .mark .leftParen ::
        .intType 64 :: .integer n :: .keyword .toWord :: (ty.tokens ++ [.mark .rightParen]) := by
      simp [Value.tokens]
    rw [htokens]
    exact Takes.peek?_cons (Takes.advance (takes_readAddress h n))
  | firstByte name length =>
    have htokens : (Value.firstByte name length).tokens ty =
        .keyword .getelementptr :: firstByteTokens name length := by
      simp [Value.tokens, firstByteTokens, zeroIndexTokens, Ty.tokens]
    rw [htokens]
    refine Takes.peek?_cons (Takes.here fun start => Takes.advance ?_)
    exact takes_readFirstByte h name start
  | _ => exact Takes.peek?_cons (Takes.advance (Takes.pure rfl))

/-- The tokens that a value starts with. -/
def opens : Token → Bool
  | .keyword _ | .integer _ | .float _ | .localName _ | .globalName _ => true
  | _ => false

theorem lead_tokens_ne {value : Value} {ty : Ty} {token : Token} {next : Option Token}
    (h : opens token = false) : lead (value.tokens ty) next ≠ some token := by
  apply lead_ne _ h
  cases value with
  | int n => by_cases hty : ty = .bool <;> simp [Value.tokens, hty, lead, opens]
  | _ => exact ⟨_, rfl, rfl⟩

end Value

namespace Operand

open Reading

def canonical (operand : Operand) : Operand :=
  ⟨operand.ty, operand.value.canonical operand.ty⟩

def Writable (operand : Operand) : Prop :=
  operand.ty.Sized ∧ operand.value.Writable operand.ty

theorem takes_skipParamAttributes_ne :
    Takes skipParamAttributes [] (fun _ => True) NotWord := by
  apply Takes.loop_last
  apply Takes.peek?
  intro token? hword
  rw [lead_nil]
  split
  · exact absurd rfl (hword _)
  · exact Takes.pure ⟨(), rfl, trivial⟩

/-- An operand is read back. -/
theorem takes_read {operand : Operand} (h : operand.Writable) :
    Takes Operand.read operand.tokens (· = operand.canonical) Free := by
  refine (Ty.takes_read h.1).bind ?_ ?_
  · rintro _ rfl
    refine takes_skipParamAttributes_ne.look ?_ (fun _ _ _ => Value.lead_tokens_ne rfl)
    intro _ _
    refine (Value.takes_read h.2).last ?_ fun _ _ => trivial
    rintro _ rfl
    exact Takes.pure rfl
  · intro _ _
    exact ⟨Value.lead_tokens_ne rfl, Value.lead_tokens_ne rfl⟩

end Operand

end QuantumIR
