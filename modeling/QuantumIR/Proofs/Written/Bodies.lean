import QuantumIR.Proofs.Written.Names

/-!
The names in the body of a function as they are written. A label starts a block, and a block without
one starts wherever something else than a label or the closing brace comes next.
-/

namespace QuantumIR

open Reading

variable {isDefinition : Bool} {state after : ReadState}

/-- The names that a block gives, in the order of the text. -/
def Block.names (block : Block) : List String :=
  block.label :: block.instructions.filterMap Instruction.result?

/-- The names that a function gives, in the order of the text. -/
def Function.names (function : Function) : List String :=
  function.params.filterMap Param.name ++ function.blocks.flatMap Block.names

namespace Function

/-- Nothing more of a block stands here. -/
def EndsBlock (tokens : List PlacedToken) : Prop :=
  next? tokens = none ∨ next? tokens = some (.mark .rightBrace) ∨
    ∃ label, next? tokens = some (.labelDef label)

/-- The instructions of a block stand in front of some tokens. They end where nothing more of a
block stands, or after one that ends the block. -/
inductive BlockStands :
    List PlacedToken → List Instruction → List Site → List PlacedToken → Prop where
  | done {left : List PlacedToken} (h : EndsBlock left) : BlockStands left [] [] left
  | last {tokens left : List PlacedToken} {instruction : Instruction} {sites : List Site}
      (h : instruction.Stands tokens sites left) (hends : instruction.isTerminator = true) :
      BlockStands tokens [instruction] sites left
  | more {tokens middle left : List PlacedToken} {instruction : Instruction}
      {instructions : List Instruction} {sites others : List Site}
      (h : instruction.Stands tokens sites middle) (hends : instruction.isTerminator = false)
      (hmore : BlockStands middle instructions others left) :
      BlockStands tokens (instruction :: instructions) (sites ++ others) left

/-- Blocks stand in front of a closing brace and some tokens. One without a written label has a
label all the same. -/
inductive BlocksStand : List PlacedToken → List Block → List Site → List PlacedToken → Prop where
  | done {left : List PlacedToken} {span : Span} :
      BlocksStand (⟨.mark .rightBrace, span⟩ :: left) [] [] left
  | labelled {tokens middle left : List PlacedToken} {label : String} {span : Span}
      {instructions : List Instruction} {blocks : List Block} {sites others : List Site}
      (h : BlockStands tokens instructions sites middle)
      (hmore : BlocksStand middle blocks others left) :
      BlocksStand (⟨.labelDef label, span⟩ :: tokens) (⟨label, instructions⟩ :: blocks)
        (⟨true, label⟩ :: (sites ++ others)) left
  | numbered {tokens middle left : List PlacedToken} {label : String}
      {instructions : List Instruction} {blocks : List Block} {sites others : List Site}
      (hnext : ¬EndsBlock tokens) (h : BlockStands tokens instructions sites middle)
      (hmore : BlocksStand middle blocks others left) :
      BlocksStand tokens (⟨label, instructions⟩ :: blocks)
        (⟨false, label⟩ :: (sites ++ others)) left

theorem BlockStands.names {tokens left : List PlacedToken} {instructions : List Instruction}
    {sites : List Site} (h : BlockStands tokens instructions sites left) :
    sites.map Site.name = instructions.filterMap Instruction.result? := by
  rw [List.filterMap_eq_flatMap_toList]
  induction h with
  | done => rfl
  | last h => rw [h.names, List.flatMap_singleton]
  | more h _ _ ih => rw [List.map_append, h.names, ih, List.flatMap_cons]

theorem BlocksStand.names {tokens left : List PlacedToken} {blocks : List Block} {sites : List Site}
    (h : BlocksStand tokens blocks sites left) :
    sites.map Site.name = blocks.flatMap Block.names := by
  induction h with
  | done => rfl
  | labelled h _ ih =>
    rw [List.map_cons, List.map_append, h.names, ih, List.flatMap_cons, Block.names,
      List.cons_append]
  | numbered _ h _ ih =>
    rw [List.map_cons, List.map_append, h.names, ih, List.flatMap_cons, Block.names,
      List.cons_append]

/-- One turn of reading a block finds its end or reads an instruction. -/
theorem cases_of_readInstruction {before : List Instruction}
    {next : List Instruction ⊕ List Instruction}
    (h : readInstruction before state = .ok (next, after)) :
    (EndsBlock state.rest ∧ next = .inr before ∧ after = state) ∨
    ∃ instruction, Instruction.read state = .ok (instruction, after) ∧
      next = if instruction.isTerminator then .inr (before ++ [instruction])
        else .inl (before ++ [instruction]) := by
  obtain ⟨token?, _, hpeek, hturn⟩ := ok_bind h
  obtain ⟨hfirst, rfl⟩ := eq_of_peek? hpeek
  split at hturn
  · cases hturn
    exact .inl ⟨.inl hfirst, rfl, rfl⟩
  · next label =>
    cases hturn
    exact .inl ⟨.inr (.inr ⟨label, hfirst⟩), rfl, rfl⟩
  · cases hturn
    exact .inl ⟨.inr (.inl hfirst), rfl, rfl⟩
  · obtain ⟨instruction, middle, hread, hnext⟩ := ok_bind hturn
    refine .inr ⟨instruction, ?_⟩
    dsimp only at hnext
    split at hnext
    · next hends =>
      cases hnext
      exact ⟨hread, (if_pos hends).symm⟩
    · next hends =>
      cases hnext
      exact ⟨hread, (if_neg hends).symm⟩

theorem stands_of_readInstructions {instructions : List Instruction}
    (h : readInstructions state = .ok (instructions, after)) :
    ∃ sites, BlockStands state.rest instructions sites after.rest ∧
      Numbered state.next sites after.next := by
  suffices hall : ∀ before, loop .instruction readInstruction before state =
      .ok (instructions, after) → ∃ items sites, instructions = before ++ items ∧
        BlockStands state.rest items sites after.rest ∧ Numbered state.next sites after.next by
    obtain ⟨items, sites, hitems, hstands, hnumbered⟩ := hall [] h
    rw [hitems]
    exact ⟨sites, hstands, hnumbered⟩
  intro before hloop
  refine induction_of_loop (motive := fun before state all after =>
    ∃ items sites, all = before ++ items ∧ BlockStands state.rest items sites after.rest ∧
      Numbered state.next sites after.next) ?_ ?_ hloop
  · intro before state all after hstep
    rcases cases_of_readInstruction hstep with ⟨hends, hall, rfl⟩ | ⟨instruction, hread, hall⟩
    · cases hall
      exact ⟨[], [], (List.append_nil _).symm, .done hends, .done _⟩
    · obtain ⟨sites, hstands, hnumbered⟩ := Instruction.stands_of_read hread
      split at hall
      · next hends =>
        cases hall
        exact ⟨[instruction], sites, rfl, .last hstands hends, hnumbered⟩
      · cases hall
  · intro before state next middle all after hstep hmore
    rcases cases_of_readInstruction hstep with ⟨_, hall, -⟩ | ⟨instruction, hread, hall⟩
    · cases hall
    · obtain ⟨sites, hstands, hnumbered⟩ := Instruction.stands_of_read hread
      split at hall
      · cases hall
      · next hends =>
        cases hall
        obtain ⟨items, others, rfl, hothers, hnumbered'⟩ := hmore
        exact ⟨instruction :: items, sites ++ others, by simp,
          .more hstands (Bool.eq_false_iff.mpr hends) hothers, hnumbered.append hnumbered'⟩

theorem cases_of_readLabel {label : String} (h : readLabel state = .ok (label, after)) :
    (∃ span, state.rest = ⟨.labelDef label, span⟩ :: after.rest ∧
      after.next = past state.next label) ∨
    (∀ other, next? state.rest ≠ some (.labelDef other)) ∧ after.rest = state.rest ∧
      label = toString state.next ∧ after.next = state.next + 1 := by
  obtain ⟨token?, _, hpeek, hlabel⟩ := ok_bind h
  obtain ⟨hfirst, rfl⟩ := eq_of_peek? hpeek
  split at hlabel
  · next written =>
    obtain ⟨_, advanced, hadvance, hlabel⟩ := ok_bind hlabel
    obtain ⟨_, observed, hobserve, hlabel⟩ := ok_bind hlabel
    cases hlabel
    cases hadvance
    obtain ⟨hrest, hnumber⟩ := next_of_observe hobserve
    obtain ⟨span, hspan⟩ := exists_eq_cons hfirst
    exact .inl ⟨span, hspan.trans (congrArg _ hrest.symm), hnumber⟩
  · next hother =>
    cases hlabel
    exact .inr ⟨fun other hsome => hother other (hfirst.symm.trans hsome), rfl, rfl, rfl⟩

/-- One turn of reading a body finds the closing brace or reads a block. -/
theorem cases_of_readBlock {before : List Block} {next : List Block ⊕ List Block}
    (h : readBlock before state = .ok (next, after)) :
    (∃ span, state.rest = ⟨.mark .rightBrace, span⟩ :: after.rest ∧ next = .inr before ∧
      after.next = state.next) ∨
    ∃ label labelled instructions, readLabel state = .ok (label, labelled) ∧
      readInstructions labelled = .ok (instructions, after) ∧
      next = .inl (before ++ [⟨label, instructions⟩]) ∧
      next? state.rest ≠ some (.mark .rightBrace) ∧ next? state.rest ≠ none := by
  obtain ⟨found, middle, hbrace, hturn⟩ := ok_bind h
  cases found with
  | true =>
    cases hturn
    obtain ⟨⟨_, span⟩, hrest, rfl⟩ := exists_of_takeIf_eq_true hbrace
    exact .inl ⟨span, hrest, rfl, quiet_takeIf _ _ _ _ hbrace⟩
  | false =>
    obtain ⟨rfl, hbrace⟩ := of_takeIf_eq_false hbrace
    obtain ⟨token?, _, hpeek, hblock⟩ := ok_bind hturn
    obtain ⟨hfirst, rfl⟩ := eq_of_peek? hpeek
    split at hblock
    · exact absurd hblock (ne_ok_of_gives fun _ => (gives_unexpected _).stop)
    · next hsome =>
      obtain ⟨label, labelled, hlabel, hblock⟩ := ok_bind hblock
      obtain ⟨instructions, last, hinstructions, hblock⟩ := ok_bind hblock
      cases hblock
      refine .inr ⟨label, labelled, instructions, hlabel, hinstructions, rfl, hbrace, ?_⟩
      intro hnone
      rw [← hfirst] at hsome
      exact hsome (Option.isNone_iff_eq_none.mpr hnone)

/-- The body of a definition stands between braces. A declaration has none. -/
inductive BodyStands :
    Bool → List PlacedToken → List Block → List Site → List PlacedToken → Prop where
  | definition {tokens left : List PlacedToken} {blocks : List Block} {sites : List Site}
      {span : Span}
      (h : BlocksStand tokens blocks sites left) :
      BodyStands true (⟨.mark .leftBrace, span⟩ :: tokens) blocks sites left
  | declaration {left : List PlacedToken} : BodyStands false left [] [] left

theorem BodyStands.names {tokens left : List PlacedToken} {blocks : List Block} {sites : List Site}
    (h : BodyStands isDefinition tokens blocks sites left) :
    sites.map Site.name = blocks.flatMap Block.names := by
  cases h with
  | definition h => exact h.names
  | declaration => rfl

theorem stands_of_loop_readBlock {before blocks : List Block}
    (h : loop .instruction readBlock before state = .ok (blocks, after)) :
    ∃ items sites, blocks = before ++ items ∧ BlocksStand state.rest items sites after.rest ∧
      Numbered state.next sites after.next := by
  refine induction_of_loop (motive := fun before state all after =>
    ∃ items sites, all = before ++ items ∧ BlocksStand state.rest items sites after.rest ∧
      Numbered state.next sites after.next) ?_ ?_ h
  · intro before state all after hstep
    rcases cases_of_readBlock hstep with ⟨span, hrest, hall, hnumber⟩ | ⟨_, _, _, _, _, hall, -⟩
    · cases hall
      rw [hrest, hnumber]
      exact ⟨[], [], (List.append_nil _).symm, .done, .done _⟩
    · cases hall
  · intro before state next middle all after hstep hmore
    rcases cases_of_readBlock hstep with
      ⟨_, _, hall, -⟩ | ⟨label, labelled, instructions, hlabel, hinstructions, hall, hbrace, hnone⟩
    · cases hall
    cases hall
    obtain ⟨sites, hstands, hnumbered⟩ := stands_of_readInstructions hinstructions
    obtain ⟨items, others, rfl, hothers, hnumbered'⟩ := hmore
    have hsites := hnumbered.append hnumbered'
    rcases cases_of_readLabel hlabel with ⟨span, hrest, hnumber⟩ | ⟨hnext, hrest, rfl, hnumber⟩
    · rw [hnumber] at hsites
      rw [hrest]
      exact ⟨⟨label, instructions⟩ :: items, ⟨true, label⟩ :: (sites ++ others), by simp,
        .labelled hstands hothers, .written hsites⟩
    · rw [hnumber] at hsites
      rw [hrest] at hstands
      have hmiddle : ¬EndsBlock state.rest := by
        rintro (hempty | hclose | ⟨other, hother⟩)
        · exact hnone hempty
        · exact hbrace hclose
        · exact hnext other hother
      exact ⟨⟨_, instructions⟩ :: items, ⟨false, _⟩ :: (sites ++ others), by simp,
        .numbered hmiddle hstands hothers, .invented hsites⟩

theorem stands_of_readBody {blocks : List Block}
    (h : readBody isDefinition state = .ok (blocks, after)) :
    ∃ sites, BodyStands isDefinition state.rest blocks sites after.rest ∧
      Numbered state.next sites after.next := by
  cases isDefinition with
  | false =>
    cases h
    exact ⟨[], .declaration, .done _⟩
  | true =>
    obtain ⟨_, opened, hopening, hblocks⟩ := ok_bind h
    obtain ⟨span, hrest⟩ := eq_cons_of_expect hopening
    obtain ⟨items, sites, rfl, hstands, hnumbered⟩ := stands_of_loop_readBlock hblocks
    rw [hrest, ← quiet_expect _ _ _ _ hopening]
    exact ⟨sites, .definition hstands, hnumbered⟩

end Function

end QuantumIR
