import QuantumIR.Proofs.Bounded.Instructions

/-!
The bounded reading of functions follows the reading of them. A function gains five turns and one
for each group that it refers to. A block without a label is no block without instructions, so each
turn over the blocks takes a token.
-/

namespace QuantumIR.Bounded

variable {α β : Type} {page : Page} {cursor : Cursor} {number credit : Nat} {isDefinition : Bool}
  {result : α → Nat → β → Cursor → Prop}

theorem follows_readQuoted (hc : Has page credit cursor) :
    Follows page cursor number Attribute.readQuoted readQuoted (Same page number (credit + 2)) := by
  apply (follows_stringLiteral hc).andThen
  intro key cursor hc
  apply Follows.ifTake hc
  · intro _ cursor hc
    apply (follows_stringLiteral hc).andThen
    intro value cursor hc
    exact Follows.pure ⟨rfl, rfl, hc.mono (by omega)⟩
  · intro _
    exact Follows.pure ⟨rfl, rfl, hc⟩

theorem follows_readParamName (hc : Has page credit cursor) :
    Follows page cursor number (Function.readParamName isDefinition)
      (readParamName isDefinition number) (Numbered page credit) := by
  apply Follows.peek?
  intro token? htoken
  have hunnamed : Follows page cursor number
      (if isDefinition then Reading.freshNumber >>= fun name => pure (some name) else pure none)
      (if isDefinition then pure (some (toString number), number + 1) else pure (none, number))
      (Numbered page credit : Option String → Nat → Option String × Nat → Cursor → Prop) := by
    apply Follows.ite
    · intro _
      exact Follows.freshNumber (Follows.pure ⟨rfl, hc⟩)
    · intro _
      exact Follows.pure ⟨rfl, hc⟩
  cases token? with
  | none => exact hunnamed
  | some token =>
    cases token with
    | localName name =>
      apply (follows_advance htoken hc).andThen
      intro _ cursor hc
      apply Follows.observe
      exact Follows.pure ⟨rfl, hc.mono (by omega)⟩
    | _ => exact hunnamed

theorem follows_readParam (hc : Has page credit cursor) :
    Follows page cursor number (Function.readParam isDefinition) (readParam isDefinition number)
      (Numbered page credit) := by
  apply Follows.ifNext
  · intro _
    exact (follows_unsupported _).stop
  apply (follows_readTy hc).andThen
  intro ty cursor hc
  apply (follows_skipParamAttributes hc).andThen
  intro _ cursor hc
  apply (follows_readParamName hc).andThenNumbered
  intro name number cursor hc
  exact Follows.pure ⟨rfl, hc⟩

/-- References to groups with the byte offsets of their tokens. -/
def Page.refs (page : Page) (groups : List (UInt32 × Nat)) : List (UInt32 × Place) :=
  groups.map fun reference => (reference.1, page.placeOf reference.2)

/-- The same stands between parameters and body. -/
def SuffixAs (page : Page) (number : Nat) (suffix : Function.Suffix) (number' : Nat)
    (suffix' : Suffix) : Prop :=
  suffix = ⟨page.refs suffix'.groups, suffix'.attributes⟩ ∧ number' = number

/-- Each group that is referred to holds a turn back. -/
def SameSuffix (page : Page) (number credit : Nat) (suffix : Function.Suffix) (number' : Nat)
    (suffix' : Suffix) (cursor : Cursor) : Prop :=
  SuffixAs page number suffix number' suffix' ∧ Has page (credit + suffix.groups.length) cursor

theorem follows_readSuffixEntry {suffix : Function.Suffix} {suffix' : Suffix}
    (hsuffix : SuffixAs page number suffix number suffix')
    (hc : Has page (credit + suffix.groups.length) cursor) :
    Follows page cursor number (Function.readSuffixEntry suffix) (readSuffixEntry suffix')
      (Onward page (fun _ => SuffixAs page number) (fun suffix => suffix.groups.length)
        (SameSuffix page number) credit suffix) := by
  have hlast : Follows page cursor number (pure (Sum.inr suffix)) (pure (Sum.inr suffix'))
      (Onward page (fun _ => SuffixAs page number) (fun suffix => suffix.groups.length)
        (SameSuffix page number) credit suffix) :=
    Follows.pure ⟨hsuffix, hc⟩
  apply Follows.peek?
  intro token? htoken
  cases token? with
  | none => exact hlast
  | some token =>
    cases token with
    | attrGroup group =>
      apply Follows.here
      apply (follows_advance htoken hc).andThen
      intro _ cursor' hc
      refine Follows.pure ⟨⟨?_, rfl⟩, ?_, ?_⟩
      · rw [hsuffix.1, Page.refs, Page.refs, List.map_append]
        rfl
      · simp
      · simp only [List.length_append, List.length_singleton]
        exact hc
    | string key =>
      apply (follows_readQuoted hc).andThen
      intro attr cursor hc
      refine Follows.pure ⟨⟨?_, rfl⟩, Nat.le_refl _, hc.mono (Nat.le_succ _)⟩
      rw [hsuffix.1]
    | word word =>
      apply (follows_advance htoken hc).andThen
      intro _ cursor hc
      apply Follows.ifTake hc
      · intro _ cursor hc
        apply (follows_skipToParen hc).andThen
        intro _ cursor hc
        have hc' : Has page (credit + suffix.groups.length + 1) cursor := hc.mono (by omega)
        exact Follows.pure ⟨hsuffix, Nat.le_refl _, hc'⟩
      · intro _
        apply (follows_skipInteger hc).andThen
        intro _ cursor hc
        exact Follows.pure ⟨hsuffix, Nat.le_refl _, hc.mono (Nat.le_succ _)⟩
    | metadata name =>
      apply (follows_advance htoken hc).andThen
      intro _ cursor hc
      exact Follows.pure ⟨hsuffix, Nat.le_refl _, hc.mono (Nat.le_succ _)⟩
    | _ => exact hlast

theorem follows_readSuffix (hc : Has page (credit + 1) cursor) :
    Follows page cursor number Function.readSuffix readSuffix (SameSuffix page number credit) := by
  refine Follows.loop (fun _ => SuffixAs page number) (fun suffix => suffix.groups.length)
    (SameSuffix page number) ?_ ⟨rfl, rfl⟩ hc
  rintro credit suffix suffix' cursor _ ⟨hsuffix, rfl⟩ hc
  exact follows_readSuffixEntry ⟨hsuffix, rfl⟩ hc

/-- A label gains its token. A block without one starts with something else. -/
theorem Follows.readBlockLabel {next : String → Reading α} {after : String × Nat → Bounded β}
    (hc : Has page credit cursor)
    (hlabel : ∀ label number' cursor', Has page (credit + 2) cursor' →
      Follows page cursor' number' (next label) (after (label, number')) result)
    (hnone : ∀ label number', (∀ other, page.token? cursor.place ≠ some (.labelDef other)) →
      Follows page cursor number' (next label) (after (label, number')) result) :
    Follows page cursor number (Function.readLabel >>= next)
      (Bounded.readBlockLabel number >>= after) result := by
  rw [Function.readLabel, Bounded.readBlockLabel, bind_assoc, bind_assoc]
  apply Follows.peek?
  intro token? htoken
  have hfresh : (∀ other, token? ≠ some (.labelDef other)) →
      Follows page cursor number (Reading.freshNumber >>= next)
        (after (toString number, number + 1)) result := by
    intro hother
    exact Follows.freshNumber (hnone _ _ (htoken ▸ hother))
  cases token? with
  | none => exact hfresh (by simp)
  | some token =>
    cases token with
    | labelDef label =>
      simp only [bind_assoc, pure_bind]
      apply (follows_advance htoken hc).andThen
      intro _ cursor' hc'
      exact Follows.observe (hlabel label _ cursor' hc')
    | _ => exact hfresh (by simp)

/-- What no instruction of a block starts with. -/
def endsBlock : Option Token → Bool
  | none | some (.labelDef _) | some (.mark .rightBrace) => true
  | _ => false

/-- The instructions of a block so far. Some gain is sure if one is read or the first one comes
next. -/
def InstructionsAs (page : Page) (gain place : Nat) (instructions : List Instruction) (number : Nat)
    (items : List Instruction × Nat) : Prop :=
  items = (instructions, number) ∧
    (instructions = [] → gain = 0 ∨ endsBlock (page.token? place) = false)

def gained (gain : Nat) (instructions : List Instruction) : Nat :=
  if instructions = [] then 0 else gain

theorem gained_append (gain : Nat) (instructions : List Instruction) (instruction : Instruction) :
    gained gain (instructions ++ [instruction]) = gain :=
  if_neg (by simp)

theorem gained_le (gain : Nat) (instructions : List Instruction) :
    gained gain instructions ≤ gain := by
  rw [gained]
  split <;> omega

theorem follows_readNextInstruction {gain : Nat} (hgain : gain ≤ 2)
    {instructions : List Instruction}
    (hfirst : instructions = [] → gain = 0 ∨ endsBlock (page.token? cursor.place) = false)
    (hc : Has page (credit + gained gain instructions) cursor) :
    Follows page cursor number (Function.readInstruction instructions)
      (readNextInstruction (instructions, number))
      (Onward page (InstructionsAs page gain) (gained gain)
        (fun credit => Numbered page (credit + gain)) credit instructions) := by
  apply Follows.peek?
  intro token? htoken
  rw [htoken] at hfirst
  have hlast : endsBlock token? = true →
      Follows page cursor number (pure (Sum.inr instructions))
        (pure (Sum.inr (instructions, number)))
        (Onward page (InstructionsAs page gain) (gained gain)
          (fun credit => Numbered page (credit + gain)) credit instructions) := by
    intro hends
    have hgained : gained gain instructions = gain := by
      rw [gained]
      split
      · next hnil =>
        rcases hfirst hnil with hzero | hnot
        · exact hzero.symm
        · exact absurd hends (by rw [hnot]; exact Bool.false_ne_true)
      · rfl
    exact Follows.pure ⟨rfl, hgained ▸ hc⟩
  have hnext : Follows page cursor number
      (Instruction.read >>= fun instruction =>
        if instruction.isTerminator then pure (.inr (instructions ++ [instruction]))
        else pure (.inl (instructions ++ [instruction])))
      (readInstruction number >>= fun item =>
        if item.1.isTerminator then pure (.inr (instructions ++ [item.1], item.2))
        else pure (.inl (instructions ++ [item.1], item.2)))
      (Onward page (InstructionsAs page gain) (gained gain)
        (fun credit => Numbered page (credit + gain)) credit instructions) := by
    apply (follows_readInstruction hc).andThenNumbered
    intro instruction number cursor hc
    have hle := gained_le gain instructions
    apply Follows.ite
    · intro _
      exact Follows.pure ⟨rfl, hc.mono (by omega)⟩
    · intro _
      refine Follows.pure ⟨⟨rfl, fun hnil => absurd hnil (by simp)⟩, ?_, ?_⟩
      · rw [gained_append]
        exact hle
      · rw [gained_append]
        exact hc.mono (by omega)
  cases token? with
  | none => exact hlast rfl
  | some token =>
    cases token with
    | labelDef label => exact hlast rfl
    | mark mark =>
      cases mark with
      | rightBrace => exact hlast rfl
      | _ => exact hnext
    | _ => exact hnext

/-- The instructions of a block gain two turns if there is one at all. -/
theorem follows_readInstructions {gain : Nat} (hgain : gain ≤ 2)
    (hfirst : gain = 0 ∨ endsBlock (page.token? cursor.place) = false)
    (hc : Has page (credit + 1) cursor) :
    Follows page cursor number Function.readInstructions (readInstructions number)
      (Numbered page (credit + gain)) := by
  refine Follows.loop (InstructionsAs page gain) (gained gain)
    (fun credit => Numbered page (credit + gain)) ?_ ⟨rfl, fun _ => hfirst⟩ hc
  rintro credit instructions _ cursor number ⟨rfl, hfirst⟩ hc
  exact follows_readNextInstruction hgain hfirst hc

/-- The turns over the blocks hold one turn back, for the first instruction of a block without a
label. -/
theorem follows_readBlock {blocks : List Block} (hc : Has page (credit + 1) cursor) :
    Follows page cursor number (Function.readBlock blocks) (readBlock (blocks, number))
      (Onward page (fun _ blocks number items => items = (blocks, number)) (fun _ => 1)
        (fun credit => Numbered page (credit + 3)) credit blocks) := by
  apply Follows.ifTake hc
  · intro _ cursor hc
    exact Follows.pure ⟨rfl, hc⟩
  intro hbrace
  apply Follows.peek?
  intro token? htoken
  apply Follows.ite
  · intro _
    exact (follows_unexpected _).stop
  intro hsome
  apply Follows.readBlockLabel hc
  · intro label number cursor hc
    apply (follows_readInstructions (Nat.zero_le 2) (.inl rfl) hc).andThenNumbered
    intro instructions number cursor hc
    exact Follows.pure ⟨rfl, Nat.le_refl _, hc⟩
  · intro label number hlabel
    have hfirst : endsBlock (page.token? cursor.place) = false := by
      rw [htoken] at hbrace hlabel ⊢
      match token?, hsome, hbrace, hlabel with
      | some token, _, hbrace, hlabel =>
        cases token with
        | labelDef label => exact absurd rfl (hlabel label)
        | mark mark =>
          cases mark with
          | rightBrace => exact absurd rfl hbrace
          | _ => rfl
        | _ => rfl
    apply (follows_readInstructions (Nat.le_refl 2) (.inr hfirst) hc).andThenNumbered
    intro instructions number cursor hc
    exact Follows.pure ⟨rfl, Nat.le_refl _, hc⟩

theorem follows_readBlocks (hc : Has page credit cursor) :
    Follows page cursor number Function.readBlocks (readBlocks number)
      (Numbered page (credit + 3)) := by
  apply (follows_expect hc).andThen
  intro _ cursor hc
  refine Follows.loop (fun _ blocks number items => items = (blocks, number)) (fun _ => 1)
    (fun credit => Numbered page (credit + 3)) ?_ rfl hc
  rintro credit blocks _ cursor number rfl hc
  exact follows_readBlock hc

theorem follows_readBody (hc : Has page credit cursor) :
    Follows page cursor number (Function.readBody isDefinition) (readBody isDefinition number)
      (Numbered page credit) := by
  apply Follows.ite
  · intro _
    exact (follows_readBlocks hc).numbered (by omega)
  · intro _
    exact Follows.pure ⟨rfl, hc⟩

theorem follows_readFunctionKeyword (hc : Has page credit cursor) :
    Follows page cursor number Function.readFunctionKeyword readFunctionKeyword
      (Same page number (credit + 2)) := by
  apply Follows.ifTake hc
  · intro _ cursor hc
    exact Follows.pure ⟨rfl, rfl, hc⟩
  intro _
  apply Follows.ifTake hc
  · intro _ cursor hc
    exact Follows.pure ⟨rfl, rfl, hc⟩
  · intro _
    exact follows_unexpected _

/-- Only the reading starts its numbers over. -/
theorem Follows.restartNumbers {next : Unit → Reading α} {bounded : Bounded β}
    (h : Follows page cursor 0 (next ()) bounded result) :
    Follows page cursor number (Reading.restartNumbers >>= next) bounded result :=
  h

/-- The same function, and a turn is left for each group that it refers to. -/
def SameFunction (page : Page) (credit : Nat) (entry : Function × List (UInt32 × Place)) (_ : Nat)
    (entry' : Function × List (UInt32 × Nat)) (cursor : Cursor) : Prop :=
  entry = (entry'.1, page.refs entry'.2) ∧ Has page (credit + entry.2.length) cursor

theorem follows_readFunction (hc : Has page credit cursor) :
    Follows page cursor number Function.read readFunction (SameFunction page (credit + 5)) := by
  apply (follows_readFunctionKeyword hc).andThen
  intro isDefinition cursor hc
  apply Follows.restartNumbers
  apply (follows_skipWords hc).andThen
  intro _ cursor hc
  apply (follows_readTy hc).andThen
  intro ret cursor hc
  apply (follows_skipWords hc).andThen
  intro _ cursor hc
  apply (follows_globalName hc).andThen
  intro name cursor hc
  apply (follows_parenthesized (fun _ _ _ => follows_readParam) hc).andThenNumbered
  intro params number cursor hc
  apply (follows_readSuffix hc).bind
  rintro suffix _ suffix' cursor ⟨⟨hsuffix, rfl⟩, hc⟩
  apply (follows_readBody hc).andThenNumbered
  intro blocks number' cursor hc
  have hc' : Has page (credit + 5 + suffix.groups.length) cursor := hc.mono (by omega)
  refine Follows.pure ⟨?_, hc'⟩
  rw [hsuffix]

end QuantumIR.Bounded
