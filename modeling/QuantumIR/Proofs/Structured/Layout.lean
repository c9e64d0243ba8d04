import QuantumIR.Proofs.Building.Finished

/-!
The code under each label of a builder, and how building adds to it. Code is only ever added at its
end, and only to the current block. A piece of a structured program fills the current block and new
ones: where it ends, one block is open in place of the one in which it began.
-/

namespace QuantumIR

namespace Builder

/-- The instructions under a label. There are none if no block has the label. -/
def code (builder : Builder) (label : String) : List Instruction :=
  ((builder.block? label).map Block.instructions).getD []

/-- Whether the block of a label does not end with a terminator. -/
def IsOpen (builder : Builder) (label : String) : Prop :=
  ∀ last ∈ (builder.code label).getLast?, last.isTerminator = false

variable {additions : Additions} {builder later : Builder} {instruction : Instruction}
  {label : String}

theorem isTerminated_eq_false_iff : builder.isTerminated = false ↔ builder.IsOpen builder.current := by
  rw [isTerminated, IsOpen, code]
  cases builder.block? builder.current with
  | none => simp
  | some block =>
    cases hlast : block.instructions.getLast? with
    | none => simp [Block.terminator?, hlast]
    | some last => simp [Block.terminator?, hlast]

theorem isOpen_of_code_eq_nil (h : builder.code label = []) : builder.IsOpen label := by
  rw [IsOpen, h]
  exact fun _ hlast => nomatch hlast

theorem isOpen_congr (h : later.code label = builder.code label) :
    later.IsOpen label ↔ builder.IsOpen label := by
  rw [IsOpen, IsOpen, h]

theorem isOpen_of_code_eq_concat {before : List Instruction}
    (h : builder.code label = before ++ [instruction]) :
    builder.IsOpen label ↔ instruction.isTerminator = false := by
  simp [IsOpen, h]

theorem block?_append : (builder.append instruction).block? label =
    (builder.block? label).map fun block =>
      if block.label = builder.current then
        { block with instructions := block.instructions ++ [instruction] }
      else block := by
  rw [block?, append, List.find?_map]
  have hsame : (fun block : Block => decide (block.label = label)) ∘ (fun block : Block =>
      if block.label = builder.current then
        { block with instructions := block.instructions ++ [instruction] } else block) =
      fun block => decide (block.label = label) := by
    funext block
    by_cases h : block.label = builder.current
    · simp [h]
    · simp [h]
  rw [hsame]
  rfl

theorem label_of_block? {block : Block} (h : builder.block? label = some block) :
    block.label = label := by
  simpa using List.find?_some h

theorem exists_block? (h : label ∈ builder.labels) :
    ∃ block, builder.block? label = some block := by
  rw [← Option.isSome_iff_exists, ← Option.not_isNone, Bool.not_eq_true', ← Bool.not_eq_true,
    Building.block?_isNone_iff]
  exact fun hnot => hnot h

theorem code_append (hcurrent : builder.current ∈ builder.labels) (label : String) :
    (builder.append instruction).code label =
      if label = builder.current then builder.code label ++ [instruction]
      else builder.code label := by
  rw [code, block?_append, code]
  by_cases hlabel : label = builder.current
  · subst hlabel
    obtain ⟨block, hblock⟩ := exists_block? hcurrent
    simp [hblock, label_of_block? hblock]
  · rw [if_neg hlabel]
    cases hblock : builder.block? label with
    | none => rfl
    | some block => simp [label_of_block? hblock, hlabel]

/-- A new block has no code. -/
theorem code_block (new label : String) :
    code { builder with blocks := builder.blocks ++ [⟨new, []⟩] } label = builder.code label := by
  rw [code, code, block?, block?, List.find?_append]
  cases builder.blocks.find? fun block => block.label = label with
  | some block => rfl
  | none =>
    by_cases hnew : new = label
    · simp [hnew]
    · simp [hnew]

theorem code_eq_nil (h : label ∉ builder.labels) : builder.code label = [] := by
  rw [code, Option.isNone_iff_eq_none.mp (Building.block?_isNone_iff.mpr h)]
  rfl

theorem code_of_mem {block : Block} (hlabels : builder.labels.Nodup) (h : block ∈ builder.blocks) :
    builder.code block.label = block.instructions := by
  rw [code, block?_eq hlabels h]
  rfl

theorem code_prefix_append (label : String) :
    builder.code label <+: (builder.append instruction).code label := by
  rw [code, code, block?_append]
  cases builder.block? label with
  | none => exact List.prefix_refl _
  | some block =>
    by_cases hblock : block.label = builder.current
    · simp [hblock]
    · simp [hblock]

/-- Code is only added at its end. -/
theorem Later.code_prefix (h : Later additions builder later) (label : String) :
    builder.code label <+: later.code label := by
  induction h with
  | refl => exact List.prefix_refl _
  | tail _ hchange ih =>
    refine ih.trans ?_
    cases hchange with
    | push instruction => exact code_prefix_append label
    | block new => rw [code_block]
    | number | declare | string | position => exact List.prefix_refl _

/-- Blocks are only added after the others. -/
theorem Later.labels_prefix (h : Later additions builder later) :
    builder.labels <+: later.labels := by
  induction h with
  | refl => exact List.prefix_refl _
  | tail _ hchange ih =>
    refine ih.trans ?_
    cases hchange with
    | push instruction =>
      change _ <+: (append _ instruction).labels
      rw [labels_append]
    | block new =>
      rw [labels, labels, List.map_append]
      exact List.prefix_append _ _
    | number | declare | string | position => exact List.prefix_refl _

/-- An instruction is added to the current block, and nothing else to any block. -/
structure Appends (additions : Additions) (builder : Builder) (instruction : Instruction)
    (later : Builder) : Prop where
  changes : Later additions builder later
  labels : later.labels = builder.labels
  current : later.current = builder.current
  code : ∀ label, later.code label =
    if label = builder.current then builder.code label ++ [instruction] else builder.code label

/-- A block of a new label is added. -/
structure Opens (additions : Additions) (builder : Builder) (label : String) (later : Builder) :
    Prop where
  changes : Later additions builder later
  new : label ∉ builder.labels
  labels : later.labels = builder.labels ++ [label]
  current : later.current = builder.current
  code : ∀ label, later.code label = builder.code label

/-- Another block is made the current one. -/
structure Turns (additions : Additions) (builder : Builder) (label : String) (later : Builder) :
    Prop where
  changes : Later additions builder later
  labels : later.labels = builder.labels
  current : later.current = label
  code : ∀ label, later.code label = builder.code label

/-- A piece of code begins in the current block and ends in the then current block, which takes the
place of the first one as an open block. Of the blocks that were there before, only the current
one gets code. -/
structure Continues (additions : Additions) (builder later : Builder) : Prop where
  changes : Later additions builder later
  kept : ∀ label ∈ builder.labels, label ≠ builder.current → later.code label = builder.code label
  current : later.current = builder.current ∨ later.current ∉ builder.labels
  isOpen : later.IsOpen later.current
  closed : ∀ label ∈ later.labels, later.IsOpen label →
    label = later.current ∨ (label ∈ builder.labels ∧ label ≠ builder.current)

/-- A piece of code begins in the current block and leaves new blocks, which are still empty. -/
structure Leaves (additions : Additions) (builder : Builder) (fresh : List String)
    (later : Builder) : Prop where
  changes : Later additions builder later
  kept : ∀ label ∈ builder.labels, label ≠ builder.current → later.code label = builder.code label
  empty : ∀ label ∈ fresh, label ∈ later.labels ∧ label ∉ builder.labels ∧ later.code label = []
  closed : ∀ label ∈ later.labels, later.IsOpen label →
    label ∈ fresh ∨ (label ∈ builder.labels ∧ label ≠ builder.current)

theorem Continues.refl (hopen : builder.IsOpen builder.current) :
    Continues additions builder builder where
  changes := .refl
  kept := fun _ _ _ => rfl
  current := .inl rfl
  isOpen := hopen
  closed := fun label hlabel _ => by
    by_cases h : label = builder.current
    · exact .inl h
    · exact .inr ⟨hlabel, h⟩

theorem Continues.trans {last : Builder} (h : Continues additions builder later)
    (h' : Continues additions later last) : Continues additions builder last where
  changes := h.changes.trans h'.changes
  kept := by
    intro label hlabel hne
    have hlater : label ≠ later.current := by
      rintro rfl
      rcases h.current with hcurrent | hnew
      · exact hne hcurrent
      · exact hnew hlabel
    rw [h'.kept label (h.changes.extends.labels hlabel) hlater, h.kept label hlabel hne]
  current := by
    rcases h'.current with hcurrent | hnew
    · rw [hcurrent]
      exact h.current
    · exact .inr fun hmem => hnew (h.changes.extends.labels hmem)
  isOpen := h'.isOpen
  closed := by
    intro label hlabel hopen
    rcases h'.closed label hlabel hopen with hlast | ⟨hmem, hne⟩
    · exact .inl hlast
    · rw [isOpen_congr (h'.kept label hmem hne)] at hopen
      rcases h.closed label hmem hopen with hcurrent | hold
      · exact absurd hcurrent hne
      · exact .inr hold

/-- An instruction that does not end a block leaves the block open. -/
theorem Appends.continues (h : Appends additions builder instruction later)
    (hinstruction : instruction.isTerminator = false) : Continues additions builder later where
  changes := h.changes
  kept := fun label _ hne => by rw [h.code, if_neg hne]
  current := .inl h.current
  isOpen := by
    rw [h.current, isOpen_of_code_eq_concat ((h.code _).trans (if_pos rfl))]
    exact hinstruction
  closed := fun label hlabel _ => by
    rw [h.labels] at hlabel
    rw [h.current]
    by_cases hne : label = builder.current
    · exact .inl hne
    · exact .inr ⟨hlabel, hne⟩

/-- Code that goes on to one of two new blocks leaves them and a third one. -/
theorem Appends.leaves {builder₁ builder₂ builder₃ builder₄ : Builder} {first second third : String}
    (hfirst : Opens additions builder first builder₁)
    (hsecond : Opens additions builder₁ second builder₂)
    (happends : Appends additions builder₂ instruction builder₃)
    (hthird : Opens additions builder₃ third builder₄)
    (hcurrent : builder.current ∈ builder.labels) (hinstruction : instruction.isTerminator = true) :
    Leaves additions builder [first, second, third] builder₄ := by
  have hlabels : builder₄.labels = builder.labels ++ [first, second, third] := by
    rw [hthird.labels, happends.labels, hsecond.labels, hfirst.labels]
    simp
  have hsame : builder₂.current = builder.current := hsecond.current.trans hfirst.current
  have hcode : ∀ label, builder₄.code label = if label = builder.current
      then builder.code label ++ [instruction] else builder.code label := by
    intro label
    rw [hthird.code, happends.code, hsame, hsecond.code, hfirst.code]
  have hnew : ∀ label ∈ [first, second, third], label ∉ builder.labels := by
    have hsecond' := hsecond.new
    have hthird' := hthird.new
    rw [hfirst.labels] at hsecond'
    rw [happends.labels, hsecond.labels, hfirst.labels] at hthird'
    simp only [List.mem_append, not_or] at hsecond' hthird'
    simp only [List.forall_mem_cons]
    exact ⟨hfirst.new, hsecond'.1, hthird'.1.1, fun _ hnil => absurd hnil List.not_mem_nil⟩
  refine ⟨?_, ?_, ?_, ?_⟩
  · exact hfirst.changes.trans (hsecond.changes.trans (happends.changes.trans hthird.changes))
  · intro label _ hne
    rw [hcode, if_neg hne]
  · intro label hlabel
    have hlabel' := hnew label hlabel
    refine ⟨?_, hlabel', ?_⟩
    · rw [hlabels]
      exact List.mem_append_right _ hlabel
    · have hne : label ≠ builder.current := fun heq => hlabel' (heq ▸ hcurrent)
      rw [hcode, if_neg hne, code_eq_nil hlabel']
  · intro label hlabel hopen
    rw [hlabels, List.mem_append] at hlabel
    rcases hlabel with hold | hfresh
    · refine .inr ⟨hold, ?_⟩
      rintro rfl
      rw [isOpen_of_code_eq_concat ((hcode _).trans (if_pos rfl)), hinstruction] at hopen
      cases hopen
    · exact .inl hfresh

/-- A new block is filled by code that begins in it and goes on elsewhere. -/
theorem Leaves.fill {builder₁ builder₂ builder₃ builder₄ : Builder} {first : String}
    {fresh : List String} (h : Leaves additions builder (first :: fresh) builder₁)
    (hfirst : first ∉ fresh) (hturns : Turns additions builder₁ first builder₂)
    (hcontinues : Continues additions builder₂ builder₃)
    (happends : Appends additions builder₃ instruction builder₄)
    (hinstruction : instruction.isTerminator = true) :
    Leaves additions builder fresh builder₄ := by
  -- The blocks that were there when the first one was turned to, and are not the first one.
  have hcode : ∀ label ∈ builder₁.labels, label ≠ first →
      builder₄.code label = builder₁.code label := by
    intro label hlabel hne
    rw [← hturns.labels] at hlabel
    rw [← hturns.current] at hne
    have hother : label ≠ builder₃.current := by
      rintro rfl
      rcases hcontinues.current with hcurrent | hnew
      · exact hne hcurrent
      · exact hnew hlabel
    rw [happends.code, if_neg hother, hcontinues.kept label hlabel hne, hturns.code]
  have hlabels : ∀ label ∈ builder₁.labels, label ∈ builder₄.labels := by
    intro label hlabel
    rw [happends.labels]
    rw [← hturns.labels] at hlabel
    exact hcontinues.changes.extends.labels hlabel
  obtain ⟨-, hnew, -⟩ := h.empty first List.mem_cons_self
  refine ⟨?_, ?_, ?_, ?_⟩
  · exact h.changes.trans (hturns.changes.trans (hcontinues.changes.trans happends.changes))
  · intro label hlabel hne
    have hne' : label ≠ first := fun heq => hnew (heq ▸ hlabel)
    rw [hcode label (h.changes.extends.labels hlabel) hne', h.kept label hlabel hne]
  · intro label hlabel
    obtain ⟨hmem, hnew', hnil⟩ := h.empty label (List.mem_cons_of_mem first hlabel)
    have hne' : label ≠ first := fun heq => hfirst (heq ▸ hlabel)
    exact ⟨hlabels label hmem, hnew', (hcode label hmem hne').trans hnil⟩
  · intro label hlabel hopen
    have hother : label ≠ builder₃.current := by
      rintro rfl
      rw [isOpen_of_code_eq_concat ((happends.code _).trans (if_pos rfl)), hinstruction] at hopen
      cases hopen
    have hopen₃ := (isOpen_congr ((happends.code label).trans (if_neg hother))).mp hopen
    rw [happends.labels] at hlabel
    rcases hcontinues.closed label hlabel hopen₃ with hcurrent | ⟨hmem, hne⟩
    · exact absurd hcurrent hother
    · rw [hturns.labels] at hmem
      rw [hturns.current] at hne
      rcases h.closed label hmem ((isOpen_congr (hcode label hmem hne)).mp hopen) with hfresh | hold
      · exact .inl ((List.mem_cons.mp hfresh).resolve_left hne)
      · exact .inr hold

/-- Code goes on in the one new block that it left. -/
theorem Leaves.continues {builder₁ builder₂ : Builder} (h : Leaves additions builder [label] builder₁)
    (hturns : Turns additions builder₁ label builder₂) : Continues additions builder builder₂ := by
  obtain ⟨-, hnew, hnil⟩ := h.empty label (List.mem_singleton_self label)
  refine ⟨h.changes.trans hturns.changes, ?_, ?_, ?_, ?_⟩
  · intro other hother hne
    rw [hturns.code, h.kept other hother hne]
  · rw [hturns.current]
    exact .inr hnew
  · apply isOpen_of_code_eq_nil
    rw [hturns.current, hturns.code, hnil]
  · intro other hother hopen
    rw [hturns.labels] at hother
    rw [hturns.current]
    rcases h.closed other hother ((isOpen_congr (hturns.code other)).mp hopen) with hfresh | hold
    · exact .inl (List.mem_singleton.mp hfresh)
    · exact .inr hold

end Builder

end QuantumIR
