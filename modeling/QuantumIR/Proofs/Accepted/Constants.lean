import QuantumIR.Proofs.Accepted.Modules
import QuantumIR.Proofs.Reading.Faithful

/-!
Where the values of a module come from. Every value that an instruction of an accepted module reads
was read from the tokens of its text, at the type at which the instruction reads it, and the values
stand in the text in the order in which they stand in the module.
-/

namespace QuantumIR

open Reading

/-- The values that a function reads, each with the type it is read at. -/
def Function.uses (function : Function) : List (Ty × Value) :=
  function.instructions.flatMap Instruction.uses

/-- The values that a module reads, each with the type it is read at. -/
def Module.uses (module : Module) : List (Ty × Value) :=
  module.functions.flatMap Function.uses

namespace Reading

variable {α β σ : Type}

/-- Values that are read from a row of tokens one after the other. Each is read where the one before
it has ended or later. -/
inductive Trail : List PlacedToken → List (Ty × Value) → List PlacedToken → Prop
  | done {tokens left : List PlacedToken} : left <:+ tokens → Trail tokens [] left
  | read {tokens left : List PlacedToken} {uses : List (Ty × Value)} {ty : Ty} {value : Value}
      {state after : ReadState} :
      state.rest <:+ tokens → Value.read ty state = .ok (value, after) →
      Trail after.rest uses left → Trail tokens ((ty, value) :: uses) left

namespace Trail

variable {tokens middle left : List PlacedToken} {uses more : List (Ty × Value)}

/-- Other tokens may stand before the first value. -/
theorem prepend (hmiddle : middle <:+ tokens) (h : Trail middle uses left) :
    Trail tokens uses left := by
  cases h with
  | done hleft => exact .done (hleft.trans hmiddle)
  | read hrest hread hmore => exact .read (hrest.trans hmiddle) hread hmore

theorem append (h : Trail tokens uses middle) (h' : Trail middle more left) :
    Trail tokens (uses ++ more) left := by
  induction h with
  | done hmiddle => exact h'.prepend hmiddle
  | read hrest hread _ ih => exact .read hrest hread (ih h')

end Trail

/-- What a step gives goes with the values that it reads on its way. -/
def Reads (step : Reading α) (result : α → List (Ty × Value) → Prop) : Prop :=
  ∀ state a after, step state = .ok (a, after) →
    ∃ uses, Trail state.rest uses after.rest ∧ result a uses

namespace Reads

variable {step : Reading α} {next : α → Reading β} {result : β → List (Ty × Value) → Prop}

theorem pure {b : β} (h : result b []) : Reads (Pure.pure b) result := by
  rintro state _ _ ⟨⟩
  exact ⟨[], .done (List.suffix_refl _), h⟩

theorem bind {first : α → List (Ty × Value) → Prop} (h : Reads step first)
    (hnext : ∀ a uses, first a uses → Reads (next a) fun b more => result b (uses ++ more)) :
    Reads (step >>= next) result := by
  intro state b after hstep
  obtain ⟨a, middle, hfirst, hrest⟩ := ok_bind hstep
  obtain ⟨uses, htrail, huses⟩ := h state a middle hfirst
  obtain ⟨more, htrail', hmore⟩ := hnext a uses huses middle b after hrest
  exact ⟨uses ++ more, htrail.append htrail', hmore⟩

/-- A step that takes tokens and reads no value. -/
theorem skip {given : α → Prop} (h : ∀ row, Gives row step given)
    (hnext : ∀ a, given a → Reads (next a) result) : Reads (step >>= next) result := by
  intro state b after hstep
  obtain ⟨a, middle, hfirst, hrest⟩ := ok_bind hstep
  obtain ⟨ha, hmiddle⟩ := h state.rest state a middle (List.suffix_refl _) hfirst
  obtain ⟨uses, htrail, huses⟩ := hnext a ha middle b after hrest
  exact ⟨uses, htrail.prepend hmiddle, huses⟩

/-- A step that gives nothing reads whatever is wanted. -/
theorem fails {step : Reading β} (h : ∀ row, Gives row step fun _ => False) : Reads step result := by
  intro state b after hstep
  exact absurd hstep (ne_ok_of_gives h)

theorem ite {c : Prop} [Decidable c] {step step' : Reading β} (h : c → Reads step result)
    (h' : ¬c → Reads step' result) : Reads (if c then step else step') result := by
  split
  · next hc => exact h hc
  · next hc => exact h' hc

/-- What a repetition has read so far goes up to what it gives. -/
theorem loop {expected : Expected} {step : σ → Reading (σ ⊕ α)} (before : σ → List (Ty × Value))
    (given : α → List (Ty × Value))
    (h : ∀ s, Reads (step s) fun next uses => Sum.elim before given next = before s ++ uses) (s : σ) :
    Reads (Reading.loop expected step s) fun a uses => given a = before s ++ uses := by
  intro state a after hloop
  induction hn : state.rest.length using Nat.strong_induction_on generalizing s state with
  | _ n ih =>
    rw [Reading.loop] at hloop
    split at hloop
    · cases hloop
    · next b middle hstep =>
      cases hloop
      exact h s state _ _ hstep
    · next s' middle hstep =>
      obtain ⟨uses, htrail, huses⟩ := h s state _ _ hstep
      split at hloop
      · next hlt =>
        obtain ⟨more, htrail', hmore⟩ := ih _ (hn ▸ hlt) s' middle hloop rfl
        have hboth : given a = before s ++ (uses ++ more) := by
          rw [hmore, ← List.append_assoc, ← huses, Sum.elim_inl]
        exact ⟨uses ++ more, htrail.append htrail', hboth⟩
      · exact absurd hloop (ne_ok_of_gives fun _ => gives_unexpected expected)

end Reads

variable {usesOf : α → List (Ty × Value)} {item : Reading α}

/-- Items between commas read their values one after the other. -/
theorem reads_commaSeparated {expected : Expected} (h : Reads item fun a uses => uses = usesOf a) :
    Reads (commaSeparated expected item) fun items uses => items.flatMap usesOf = uses := by
  refine Reads.loop (List.flatMap usesOf) (List.flatMap usesOf) ?_ []
  intro items
  refine Reads.bind h ?_
  rintro a _ rfl
  refine Reads.skip (fun _ => gives_takeIf _) fun more _ => ?_
  have hflat : (items ++ [a]).flatMap usesOf = items.flatMap usesOf ++ (usesOf a ++ []) := by
    simp
  exact Reads.ite (fun _ => .pure hflat) fun _ => .pure hflat

theorem reads_parenthesized (h : Reads item fun a uses => uses = usesOf a) :
    Reads (parenthesized item) fun items uses => items.flatMap usesOf = uses := by
  refine Reads.skip (fun _ => gives_expect _) fun _ _ => ?_
  refine Reads.skip (fun _ => gives_takeIf _) fun empty _ => ?_
  refine Reads.ite (fun _ => .pure rfl) fun _ => ?_
  refine Reads.bind (reads_commaSeparated h) ?_
  rintro items _ rfl
  exact Reads.skip (fun _ => gives_expect _) fun _ _ => .pure (List.append_nil _).symm

end Reading

/-- A value reads itself. -/
theorem Value.reads_read (ty : Ty) :
    Reads (Value.read ty) fun value uses => uses = [(ty, value)] := by
  intro state value after hread
  have hsuffix : after.rest <:+ after.rest := List.suffix_refl _
  exact ⟨_, .read (List.suffix_refl _) hread (.done hsuffix), rfl⟩

theorem Operand.reads_read :
    Reads Operand.read fun operand uses => uses = [(operand.ty, operand.value)] := by
  refine Reads.skip (fun _ => Ty.gives_read) fun ty _ => ?_
  refine Reads.skip (fun _ => gives_skipParamAttributes) fun _ _ => ?_
  refine Reads.bind (Value.reads_read ty) ?_
  rintro value _ rfl
  exact .pure rfl

namespace Instruction

theorem reads_readCall (result : Option String) :
    Reads (readCall result) fun instruction uses => uses = instruction.uses := by
  refine Reads.skip (fun _ => gives_here) fun start _ => ?_
  refine Reads.skip (fun _ => gives_expect _) fun _ _ => ?_
  refine Reads.skip (fun _ => gives_skipWords _) fun _ _ => ?_
  refine Reads.skip (fun _ => Ty.gives_read) fun ret _ => ?_
  refine Reads.skip (fun _ => gives_isNext _) fun found _ => ?_
  refine Reads.ite (fun _ => .fails fun _ => (gives_unsupported .functionType).stop) fun _ => ?_
  refine Reads.skip (fun _ => gives_readCallee) fun callee _ => ?_
  refine Reads.bind (reads_parenthesized Operand.reads_read) ?_
  rintro args _ rfl
  have hargs : args.flatMap (fun arg => [(arg.ty, arg.value)]) ++ [] =
      args.map fun arg => (arg.ty, arg.value) := by
    rw [List.append_nil]
    exact List.flatMap_pure_eq_map _ args
  refine Reads.skip (fun _ => gives_skipGroups) fun _ _ => ?_
  refine Reads.ite (fun _ => ?_) fun _ => ?_
  · exact Reads.skip (fun _ => gives_refuseResult _ _) fun _ _ => .pure hargs
  · exact Reads.skip (fun _ => gives_nameResult _) fun _ _ => .pure hargs

theorem reads_readReturn :
    Reads readReturn fun instruction uses => uses = instruction.uses := by
  refine Reads.skip (fun _ => gives_takeIf _) fun found _ => ?_
  refine Reads.ite (fun _ => .pure rfl) fun _ => ?_
  refine Reads.bind Operand.reads_read ?_
  rintro operand _ rfl
  exact .pure rfl

theorem reads_readBranch :
    Reads readBranch fun instruction uses => uses = instruction.uses := by
  refine Reads.skip (fun _ => gives_takeIf _) fun found _ => ?_
  refine Reads.ite (fun _ => ?_) fun _ => ?_
  · exact Reads.skip (fun _ => gives_localName) fun _ _ => .pure rfl
  refine Reads.skip (fun _ => Ty.gives_read) fun ty _ => ?_
  refine Reads.ite (fun _ => .fails fun _ => (gives_unsupported (.branchOn ty)).stop) fun hty => ?_
  rw [not_not] at hty
  subst hty
  refine Reads.bind (Value.reads_read .bool) ?_
  rintro condition _ rfl
  refine Reads.skip (fun _ => gives_expect _) fun _ _ => ?_
  refine Reads.skip (fun _ => gives_readLabel) fun onTrue _ => ?_
  refine Reads.skip (fun _ => gives_expect _) fun _ _ => ?_
  exact Reads.skip (fun _ => gives_readLabel) fun _ _ => .pure rfl

theorem reads_readPair (word : String) : Reads (readPair word) fun pair uses =>
    uses = [(.int pair.1, pair.2.1), (.int pair.1, pair.2.2)] := by
  refine Reads.skip (fun _ => gives_here) fun start _ => ?_
  refine Reads.skip (fun _ => Ty.gives_read) fun ty _ => ?_
  split
  · exact .fails fun _ => gives_unsupportedAt _ _
  · next width hwidth =>
    obtain rfl := Ty.eq_int_of_intWidth? hwidth
    refine Reads.bind (Value.reads_read _) ?_
    rintro lhs _ rfl
    refine Reads.skip (fun _ => gives_expect _) fun _ _ => ?_
    refine Reads.bind (Value.reads_read _) ?_
    rintro rhs _ rfl
    exact .pure rfl

theorem reads_readCompare (result : Option String) :
    Reads (readCompare result) fun instruction uses => uses = instruction.uses := by
  refine Reads.skip (fun _ => gives_peek?) fun token? _ => ?_
  dsimp only
  split
  · exact .fails fun _ => gives_unexpected .predicate
  · next predicate _ =>
    refine Reads.skip (fun _ => gives_advance) fun _ _ => ?_
    refine Reads.bind (reads_readPair "icmp") ?_
    rintro ⟨width, lhs, rhs⟩ _ rfl
    exact Reads.skip (fun _ => gives_nameResult result) fun _ _ => .pure rfl

theorem reads_readSelect (result : Option String) (start : Place) :
    Reads (readSelect result start) fun instruction uses => uses = instruction.uses := by
  refine Reads.bind Operand.reads_read ?_
  rintro condition _ rfl
  refine Reads.ite (fun _ => .fails fun _ => (gives_unsupportedAt _ _).stop) fun hcondition => ?_
  rw [not_not] at hcondition
  refine Reads.skip (fun _ => gives_expect _) fun _ _ => ?_
  refine Reads.bind Operand.reads_read ?_
  rintro onTrue _ rfl
  refine Reads.skip (fun _ => gives_expect _) fun _ _ => ?_
  refine Reads.bind Operand.reads_read ?_
  rintro onFalse _ rfl
  refine Reads.ite (fun _ => .fails fun _ => (gives_unsupportedAt _ _).stop) fun hsame => ?_
  rw [not_not] at hsame
  refine Reads.skip (fun _ => gives_nameResult result) fun _ _ => .pure ?_
  rw [hcondition, hsame]
  rfl

theorem reads_readBinary (result : Option String) (op : BinaryOp) :
    Reads (readBinary result op) fun instruction uses => uses = instruction.uses := by
  refine Reads.skip (fun _ => gives_skipWords _) fun _ _ => ?_
  refine Reads.bind (reads_readPair op.mnemonic) ?_
  rintro ⟨width, lhs, rhs⟩ _ rfl
  exact Reads.skip (fun _ => gives_nameResult result) fun _ _ => .pure rfl

theorem reads_readConvert (result : Option String) (conversion : Conversion) (start : Place) :
    Reads (readConvert result conversion start) fun instruction uses => uses = instruction.uses := by
  refine Reads.skip (fun _ => gives_takeIf _) fun _ _ => ?_
  refine Reads.skip (fun _ => Ty.gives_read) fun source _ => ?_
  split
  · exact .fails fun _ => gives_unsupportedAt _ _
  · next sourceWidth hwidth =>
    obtain rfl := Ty.eq_int_of_intWidth? hwidth
    refine Reads.bind (Value.reads_read _) ?_
    rintro value _ rfl
    refine Reads.skip (fun _ => gives_expect _) fun _ _ => ?_
    refine Reads.skip (fun _ => Ty.gives_read) fun target _ => ?_
    split
    · exact .fails fun _ => gives_unsupportedAt _ _
    · exact Reads.skip (fun _ => gives_nameResult result) fun _ _ => .pure rfl

theorem reads_readWord (result : Option String) (start : Place) (word : String) :
    Reads (readWord result start word) fun instruction uses => uses = instruction.uses := by
  refine Reads.ite (fun _ => ?_) fun _ => ?_
  · refine Reads.skip (fun _ => gives_advance) fun _ _ => ?_
    refine Reads.skip (fun _ => gives_isNext _) fun found _ => ?_
    exact Reads.ite (fun _ => reads_readCall result) fun _ => .fails fun _ => gives_unexpected .call
  · split
    · exact Reads.skip (fun _ => gives_advance) fun _ _ => reads_readBinary result _
    · exact Reads.skip (fun _ => gives_advance) fun _ _ => reads_readConvert result _ start
    · exact .fails fun _ => gives_unsupported _

theorem reads_readBody (result : Option String) :
    Reads (readBody result) fun instruction uses => uses = instruction.uses := by
  refine Reads.skip (fun _ => gives_here) fun start _ => ?_
  refine Reads.skip (fun _ => gives_peek?) fun token? _ => ?_
  split
  · exact reads_readCall result
  · refine Reads.skip (fun _ => gives_refuseResult result start) fun _ _ => ?_
    exact Reads.skip (fun _ => gives_advance) fun _ _ => reads_readReturn
  · refine Reads.skip (fun _ => gives_refuseResult result start) fun _ _ => ?_
    exact Reads.skip (fun _ => gives_advance) fun _ _ => reads_readBranch
  · exact Reads.skip (fun _ => gives_advance) fun _ _ => reads_readCompare result
  · exact Reads.skip (fun _ => gives_advance) fun _ _ => reads_readSelect result start
  · exact reads_readWord result start _
  · exact .fails fun _ => gives_unexpected .instruction

/-- The values of an instruction are read in their order. -/
theorem reads_read : Reads Instruction.read fun instruction uses => uses = instruction.uses := by
  refine Reads.skip (fun _ => gives_readBinding) fun result _ => ?_
  refine Reads.bind (reads_readBody result) ?_
  rintro instruction _ rfl
  exact Reads.skip (fun _ => gives_skipAttachments) fun _ _ => .pure (List.append_nil _)

end Instruction

namespace Function

theorem reads_readInstruction (instructions : List Instruction) :
    Reads (readInstruction instructions) fun next uses =>
      Sum.elim (List.flatMap Instruction.uses) (List.flatMap Instruction.uses) next =
        instructions.flatMap Instruction.uses ++ uses := by
  have hread : Reads (do
      let instruction ← Instruction.read
      let instructions := instructions ++ [instruction]
      if instruction.isTerminator then return .inr instructions
      else return .inl instructions) fun next uses =>
        Sum.elim (List.flatMap Instruction.uses) (List.flatMap Instruction.uses) next =
          instructions.flatMap Instruction.uses ++ uses := by
    refine Reads.bind Instruction.reads_read ?_
    rintro instruction _ rfl
    have hflat : (instructions ++ [instruction]).flatMap Instruction.uses =
        instructions.flatMap Instruction.uses ++ (instruction.uses ++ []) := by
      simp
    exact Reads.ite (fun _ => .pure hflat) fun _ => .pure hflat
  have hstop : instructions.flatMap Instruction.uses =
      instructions.flatMap Instruction.uses ++ [] := (List.append_nil _).symm
  refine Reads.skip (fun _ => gives_peek?) fun token? _ => ?_
  split
  · exact .pure hstop
  · exact .pure hstop
  · exact .pure hstop
  · exact hread

theorem reads_readInstructions : Reads readInstructions fun instructions uses =>
    instructions.flatMap Instruction.uses = uses :=
  Reads.loop _ _ reads_readInstruction []

/-- The values that blocks read. -/
def usesOf (blocks : List Block) : List (Ty × Value) :=
  (blocks.flatMap Block.instructions).flatMap Instruction.uses

theorem reads_readBlock (blocks : List Block) : Reads (readBlock blocks) fun next uses =>
    Sum.elim usesOf usesOf next = usesOf blocks ++ uses := by
  refine Reads.skip (fun _ => gives_takeIf _) fun found _ => ?_
  refine Reads.ite (fun _ => .pure (List.append_nil _).symm) fun _ => ?_
  refine Reads.skip (fun _ => gives_peek?) fun token? _ => ?_
  refine Reads.ite (fun _ => .fails fun _ => (gives_unexpected .closingBrace).stop) fun _ => ?_
  refine Reads.skip (fun _ => gives_readLabel) fun label _ => ?_
  refine Reads.bind reads_readInstructions ?_
  rintro instructions _ rfl
  refine .pure ?_
  simp [usesOf]

theorem reads_readBody (isDefinition : Bool) :
    Reads (readBody isDefinition) fun blocks uses => usesOf blocks = uses := by
  refine Reads.ite (fun _ => ?_) fun _ => .pure rfl
  refine Reads.skip (fun _ => gives_expect _) fun _ _ => ?_
  exact Reads.loop usesOf usesOf reads_readBlock []

/-- The values of a function are read in their order. -/
theorem reads_read : Reads Function.read fun entry uses => entry.1.uses = uses := by
  refine Reads.skip (fun _ => gives_readFunctionKeyword) fun isDefinition _ => ?_
  refine Reads.skip (fun _ => gives_restartNumbers) fun _ _ => ?_
  refine Reads.skip (fun _ => gives_skipWords _) fun _ _ => ?_
  refine Reads.skip (fun _ => Ty.gives_read) fun ret _ => ?_
  refine Reads.skip (fun _ => gives_skipWords _) fun _ _ => ?_
  refine Reads.skip (fun _ => gives_globalName) fun name _ => ?_
  refine Reads.skip (fun _ => gives_parenthesized (gives_readParam isDefinition)) fun params _ => ?_
  refine Reads.skip (fun _ => gives_readSuffix) fun suffix _ => ?_
  refine Reads.bind (reads_readBody isDefinition) ?_
  rintro blocks _ rfl
  exact .pure (List.append_nil _).symm

end Function

namespace Module

variable {text : List Char}

theorem gives_readGroup_any {row : List PlacedToken} :
    Gives row (readGroup text) fun _ => True := by
  have hattributes : Gives row (readAttributes text) fun _ => True :=
    Gives.loop (fun _ => True)
      (fun attributes _ => (Attribute.gives_readAttribute attributes).weaken fun next _ => by
        cases next <;> trivial)
      trivial
  apply (gives_expect _).skip
  intro _
  apply gives_peek?.skip
  intro token?
  split
  · apply gives_advance.skip
    intro _
    apply (gives_expect _).skip
    intro _
    apply (gives_expect _).skip
    intro _
    exact hattributes.skip fun _ => Gives.pure trivial
  · exact gives_unexpected .groupNumber

/-- The values that have been read of a module so far. -/
def Draft.uses (draft : Draft) : List (Ty × Value) :=
  draft.functions.flatMap fun entry => entry.1.uses

theorem reads_readEntity (text : List Char) (draft : Draft) :
    Reads (readEntity text draft) fun after uses => after.uses = draft.uses ++ uses := by
  have hsame : draft.uses = draft.uses ++ [] := (List.append_nil _).symm
  have hfunction : Reads (do
      return { draft with functions := draft.functions ++ [← Function.read] })
      fun after uses => Draft.uses after = draft.uses ++ uses := by
    refine Reads.bind Function.reads_read ?_
    rintro entry _ rfl
    refine .pure ?_
    simp [Draft.uses]
  refine Reads.skip (fun _ => gives_here) fun start _ => ?_
  refine Reads.skip (fun _ => gives_peek?) fun token? _ => ?_
  split
  · exact Reads.skip (fun _ => gives_readSource) fun _ _ => .pure hsame
  · exact Reads.skip (fun _ => gives_readTarget) fun _ _ => .pure hsame
  · exact Reads.skip (fun _ => gives_readOpaqueType) fun _ _ => .pure hsame
  · refine Reads.skip (fun _ => gives_readGlobal) fun global _ => ?_
    exact Reads.ite (fun _ => .fails fun _ => (gives_failAt _ _).stop) fun _ => .pure hsame
  · exact hfunction
  · exact hfunction
  · refine Reads.skip (fun _ => gives_readGroup_any) fun group _ => ?_
    exact Reads.ite (fun _ => .fails fun _ => (gives_failAt _ _).stop) fun _ => .pure hsame
  · exact .fails fun _ => gives_unexpected .topLevel

theorem reads_readEntities (text : List Char) :
    Reads (readEntities text) fun draft uses => draft.uses = uses := by
  refine Reads.loop Draft.uses Draft.uses ?_ ⟨none, [], [], [], []⟩
  intro draft
  refine Reads.skip (fun _ => gives_peek?) fun token? _ => ?_
  refine Reads.ite (fun _ => .pure (List.append_nil _).symm) fun _ => ?_
  refine Reads.bind (reads_readEntity text draft) ?_
  rintro after uses huses
  refine .pure ?_
  rw [List.append_nil]
  exact huses

/-- The attributes that a function refers to are no values. -/
theorem uses_of_resolve {groups : List (UInt32 × List Attribute)}
    {entry : Function × List (UInt32 × Place)} {function : Function}
    (h : resolve groups entry = .ok function) : function.uses = entry.1.uses := by
  rw [resolve] at h
  obtain ⟨found, -, h⟩ := Verification.bind_eq_ok.mp h
  cases h
  rfl

theorem uses_of_mapM_resolve {groups : List (UInt32 × List Attribute)}
    {entries : List (Function × List (UInt32 × Place))} {functions : List Function}
    (h : entries.mapM (resolve groups) = .ok functions) :
    functions.flatMap Function.uses = entries.flatMap fun entry => entry.1.uses := by
  induction entries generalizing functions with
  | nil =>
    cases h
    rfl
  | cons entry entries ih =>
    rw [List.mapM_cons] at h
    obtain ⟨function, hfunction, h⟩ := Verification.bind_eq_ok.mp h
    obtain ⟨others, hothers, h⟩ := Verification.bind_eq_ok.mp h
    cases h
    rw [List.flatMap_cons, List.flatMap_cons, uses_of_resolve hfunction, ih hothers]

/-- The values of a module that a text spells are read from the tokens of the text, in their
order. -/
theorem trail_of_readText {module : Module} (h : readText text = .ok module) :
    ∃ tokens left, Lexeme.scan text = tokens.map Lexeme.ofPlaced ∧ Trail tokens module.uses left := by
  rw [readText] at h
  obtain ⟨tokens, htokens, h⟩ := Verification.bind_eq_ok.mp h
  obtain ⟨⟨draft, after⟩, hdraft, h⟩ := Verification.bind_eq_ok.mp h
  obtain ⟨functions, hfunctions, h⟩ := Verification.bind_eq_ok.mp h
  cases h
  obtain ⟨uses, htrail, rfl⟩ := reads_readEntities text _ _ _ hdraft
  refine ⟨tokens, after.rest, Lexeme.eq_map_of_placeTokens htokens, ?_⟩
  rw [uses, uses_of_mapM_resolve hfunctions]
  exact htrail

end Module

end QuantumIR
