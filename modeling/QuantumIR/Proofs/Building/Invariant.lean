import QuantumIR.Proofs.Building.Session

/-!
What holds of a builder at every moment: each small change keeps it, so every session does.
-/

namespace QuantumIR

namespace Builder

/-- A builder as steps leave it. -/
structure Sound (additions : Additions) (builder : Builder) : Prop where
  labels : builder.labels.Nodup
  current : builder.current ∈ builder.labels
  /-- No terminator stands before the end of a block. -/
  terminators : ∀ block ∈ builder.blocks, ∀ instruction ∈ block.instructions.dropLast,
    instruction.isTerminator = false
  stands : ∀ instruction ∈ builder.instructions, builder.Stands instruction
  allowed : ∀ instruction ∈ builder.instructions, additions.instruction instruction
  results : (builder.instructions.filterMap Instruction.result?).Nodup
  numbers : ∀ name ∈ builder.instructions.filterMap Instruction.result?,
    ∃ number < builder.nextValue, name = toString number
  names : (builder.declarations.map Function.name).Nodup
  declarations : ∀ function ∈ builder.declarations, ∃ name signature,
    function = declarationOf name signature ∧ name ≠ entryName ∧
      additions.declaration name signature
  globals : builder.globals.map GlobalString.name =
    (List.range builder.globals.length).map toString
  texts : ∀ global ∈ builder.globals, ∃ text, additions.text text ∧
    global.bytes = Text.utf8 text.toList ++ [0]

/-- A builder has all that another one has, with the same counts. -/
structure Extends (later builder : Builder) : Prop where
  name : later.name = builder.name
  qubitCount : later.qubitCount = builder.qubitCount
  resultCount : later.resultCount = builder.resultCount
  labels : builder.labels ⊆ later.labels
  declarations : builder.declarations ⊆ later.declarations
  globals : builder.globals <+: later.globals

variable {additions : Additions} {builder later : Builder} {instruction : Instruction}

theorem Extends.refl (builder : Builder) : builder.Extends builder :=
  ⟨rfl, rfl, rfl, fun _ h => h, fun _ h => h, List.prefix_refl _⟩

theorem Extends.trans {last : Builder} (h : last.Extends later) (h' : later.Extends builder) :
    last.Extends builder where
  name := h.name.trans h'.name
  qubitCount := h.qubitCount.trans h'.qubitCount
  resultCount := h.resultCount.trans h'.resultCount
  labels := fun _ hmem => h.labels (h'.labels hmem)
  declarations := fun _ hmem => h.declarations (h'.declarations hmem)
  globals := h'.globals.trans h.globals

theorem labels_append : (builder.append instruction).labels = builder.labels := by
  rw [labels, labels, append, List.map_map]
  apply List.map_congr_left
  intro block _
  by_cases h : block.label = builder.current
  · simp [h]
  · simp [h]

theorem Change.extends (h : Change additions builder later) : later.Extends builder := by
  cases h with
  | number => exact ⟨rfl, rfl, rfl, fun _ h => h, fun _ h => h, List.prefix_refl _⟩
  | push instruction =>
    exact ⟨rfl, rfl, rfl, fun _ h => labels_append.symm ▸ h, fun _ h => h, List.prefix_refl _⟩
  | declare name signature =>
    exact ⟨rfl, rfl, rfl, fun _ h => h, List.subset_append_left _ _, List.prefix_refl _⟩
  | string text =>
    exact ⟨rfl, rfl, rfl, fun _ h => h, fun _ h => h, List.prefix_append _ _⟩
  | block label =>
    refine ⟨rfl, rfl, rfl, ?_, fun _ h => h, List.prefix_refl _⟩
    rw [labels, labels, List.map_append]
    exact List.subset_append_left _ _
  | position label => exact ⟨rfl, rfl, rfl, fun _ h => h, fun _ h => h, List.prefix_refl _⟩

theorem Later.extends (h : Later additions builder later) : later.Extends builder := by
  induction h with
  | refl => exact .refl builder
  | tail _ hchange ih => exact hchange.extends.trans ih

theorem checkOperand_congr (h : later.Extends builder) (operand : Operand) :
    later.checkOperand operand = builder.checkOperand operand := by
  have hcheck : ∀ register index,
      later.checkIndex register index = builder.checkIndex register index := by
    intro register index
    have hlimit : later.limit register = builder.limit register := by
      cases register with
      | qubit => exact h.qubitCount
      | result => exact h.resultCount
    rw [checkIndex, checkIndex, hlimit]
  rw [checkOperand, checkOperand]
  simp only [hcheck]

/-- What a builder made sure of stays true. -/
theorem Stands.mono (hstands : builder.Stands instruction) (h : later.Extends builder) :
    later.Stands instruction := by
  cases instruction with
  | call result ret callee args =>
    obtain ⟨hresult, hargs, known, hknown, hsignature⟩ := hstands
    refine ⟨hresult, ?_, known, h.declarations hknown, hsignature⟩
    intro arg harg
    rw [checkOperand_congr h]
    exact hargs arg harg
  | branch target => exact h.labels hstands
  | branchIf condition onTrue onFalse => exact ⟨h.labels hstands.1, h.labels hstands.2⟩
  | _ => exact hstands

/-- An instruction is added once. -/
theorem perm_instructions_append (hlabels : builder.labels.Nodup)
    (hcurrent : builder.current ∈ builder.labels) :
    (builder.append instruction).instructions.Perm (instruction :: builder.instructions) := by
  obtain ⟨name, qubitCount, resultCount, blocks, current, declarations, globals, nextValue⟩ :=
    builder
  simp only [labels, instructions, append] at hlabels hcurrent ⊢
  induction blocks with
  | nil => exact absurd hcurrent List.not_mem_nil
  | cons block blocks ih =>
    rw [List.map_cons, List.nodup_cons] at hlabels
    obtain ⟨hnew, hrest⟩ := hlabels
    rw [List.map_cons, List.flatMap_cons, List.flatMap_cons]
    by_cases hblock : block.label = current
    · rw [if_pos hblock]
      have hsame : blocks.map (fun block => if block.label = current then
          { block with instructions := block.instructions ++ [instruction] } else block) =
          blocks := by
        refine (List.map_congr_left ?_).trans (List.map_id blocks)
        intro other hother
        rw [if_neg, id]
        rintro rfl
        exact hnew (hblock ▸ List.mem_map_of_mem hother)
      rw [hsame, List.append_assoc]
      exact List.perm_middle
    · rw [if_neg hblock]
      have hmem : current ∈ blocks.map Block.label := by
        rcases List.mem_cons.mp hcurrent with h | h
        · exact absurd h.symm hblock
        · exact h
      exact ((ih hrest hmem).append_left _).trans List.perm_middle

theorem mem_instructions_append (hlabels : builder.labels.Nodup)
    (hcurrent : builder.current ∈ builder.labels) {other : Instruction} :
    other ∈ (builder.append instruction).instructions ↔
      other = instruction ∨ other ∈ builder.instructions := by
  rw [(perm_instructions_append hlabels hcurrent).mem_iff, List.mem_cons]

/-- The block of a label is found by it. -/
theorem block?_eq {block : Block} (hlabels : builder.labels.Nodup)
    (h : block ∈ builder.blocks) : builder.block? block.label = some block := by
  rw [block?]
  cases hfind : builder.blocks.find? fun other => other.label = block.label with
  | none => exact absurd (List.find?_eq_none.mp hfind block h) (by simp)
  | some found =>
    have hlabel : found.label = block.label := by simpa using List.find?_some hfind
    rw [List.inj_on_of_nodup_map hlabels (List.mem_of_find?_eq_some hfind) h hlabel]

/-- All instructions of a block without a terminator at its end are none. -/
theorem not_terminator_of_open {block : Block} (hopen : block.terminator? = none)
    (hbefore : ∀ instruction ∈ block.instructions.dropLast, instruction.isTerminator = false)
    (h : instruction ∈ block.instructions) : instruction.isTerminator = false := by
  have hne : block.instructions ≠ [] := List.ne_nil_of_mem h
  rw [← List.dropLast_concat_getLast hne, List.mem_append, List.mem_singleton] at h
  rcases h with h | rfl
  · exact hbefore instruction h
  · rw [Block.terminator?, List.getLast?_eq_some_getLast hne, Option.filter_eq_none_iff] at hopen
    simpa using hopen _ rfl

namespace Sound

theorem declare (h : builder.Sound additions) {name : String} {signature : Signature}
    (hname : name ≠ entryName) (hnew : name ∉ builder.declarations.map Function.name)
    (hallowed : additions.declaration name signature) :
    { builder with declarations := builder.declarations ++ [declarationOf name signature] }.Sound
      additions where
  labels := h.labels
  current := h.current
  terminators := h.terminators
  stands := fun instruction hmem => (h.stands instruction hmem).mono
    (Change.declare builder name signature hname hnew hallowed).extends
  allowed := h.allowed
  results := h.results
  numbers := h.numbers
  names := by
    rw [List.map_append, List.nodup_append]
    refine ⟨h.names, List.nodup_singleton _, ?_⟩
    rintro known hknown other hother rfl
    rw [List.map_singleton, List.mem_singleton] at hother
    rw [hother] at hknown
    exact hnew hknown
  declarations := by
    intro function hfunction
    rcases List.mem_append.mp hfunction with hmem | hmem
    · exact h.declarations function hmem
    · exact ⟨name, signature, List.mem_singleton.mp hmem, hname, hallowed⟩
  globals := h.globals
  texts := h.texts

theorem string (h : builder.Sound additions) {text : String} (hallowed : additions.text text) :
    ({ builder with globals := builder.globals ++
      [⟨toString builder.globals.length, Text.utf8 text.toList ++ [0]⟩] } : Builder).Sound
        additions where
  labels := h.labels
  current := h.current
  terminators := h.terminators
  stands := fun instruction hmem => (h.stands instruction hmem).mono
    (Change.string builder text hallowed).extends
  allowed := h.allowed
  results := h.results
  numbers := h.numbers
  names := h.names
  declarations := h.declarations
  globals := by
    rw [List.map_append, List.length_append, List.length_singleton, List.range_succ,
      List.map_append, h.globals]
    rfl
  texts := by
    intro global hglobal
    rcases List.mem_append.mp hglobal with hmem | hmem
    · exact h.texts global hmem
    · rw [List.mem_singleton.mp hmem]
      exact ⟨text, hallowed, rfl⟩

theorem block (h : builder.Sound additions) {label : String} (hlabel : label ∉ builder.labels) :
    ({ builder with blocks := builder.blocks ++ [⟨label, []⟩] } : Builder).Sound additions := by
  have hchange : Change additions builder _ := Change.block builder label hlabel
  have hextends := hchange.extends
  have hinstructions :
      ({ builder with blocks := builder.blocks ++ [⟨label, []⟩] } : Builder).instructions =
        builder.instructions := by
    rw [instructions, List.flatMap_append]
    exact List.append_nil _
  have hlabels : ({ builder with blocks := builder.blocks ++ [⟨label, []⟩] } : Builder).labels =
      builder.labels ++ [label] := List.map_append
  exact {
    labels := by
      rw [hlabels, List.nodup_append]
      refine ⟨h.labels, List.nodup_singleton _, ?_⟩
      rintro known hknown other hother rfl
      exact hlabel (List.mem_singleton.mp hother ▸ hknown)
    current := hextends.labels h.current
    terminators := by
      intro block hblock
      rcases List.mem_append.mp hblock with hmem | hmem
      · exact h.terminators block hmem
      · rw [List.mem_singleton.mp hmem]
        exact fun _ hnil => absurd hnil List.not_mem_nil
    stands := by
      rw [hinstructions]
      exact fun instruction hmem => (h.stands instruction hmem).mono hextends
    allowed := hinstructions.symm ▸ h.allowed
    results := hinstructions.symm ▸ h.results
    numbers := hinstructions.symm ▸ h.numbers
    names := h.names
    declarations := h.declarations
    globals := h.globals
    texts := h.texts }

/-- The blocks that an instruction is added to are open. -/
theorem terminators_append (h : builder.Sound additions) (hopen : builder.isTerminated = false) :
    ∀ block ∈ (builder.append instruction).blocks, ∀ other ∈ block.instructions.dropLast,
      other.isTerminator = false := by
  intro block hblock other hother
  obtain ⟨old, hold, rfl⟩ := List.mem_map.mp hblock
  by_cases hcurrent : old.label = builder.current
  · rw [if_pos hcurrent, List.dropLast_concat] at hother
    rw [isTerminated, ← hcurrent, block?_eq h.labels hold] at hopen
    exact not_terminator_of_open (Option.not_isSome_iff_eq_none.mp (by simpa using hopen))
      (h.terminators old hold) hother
  · rw [if_neg hcurrent] at hother
    exact h.terminators old hold other hother

theorem push (h : builder.Sound additions) (hopen : builder.isTerminated = false)
    (haccepts : builder.Accepts instruction) (hallowed : additions.instruction instruction) :
    { builder.append instruction with nextValue := builder.numberAfter instruction }.Sound
      additions := by
  have hextends := (Change.push builder instruction hopen haccepts hallowed).extends
  have hperm : (builder.append instruction).instructions.Perm _ :=
    perm_instructions_append h.labels h.current
  have hmem : ∀ other ∈ (builder.append instruction).instructions,
      other = instruction ∨ other ∈ builder.instructions :=
    fun other => (mem_instructions_append h.labels h.current).mp
  have hold : ∀ name ∈ builder.instructions.filterMap Instruction.result?,
      ∃ number < builder.nextValue, name = toString number := h.numbers
  have hbound : builder.nextValue ≤ builder.numberAfter instruction := by
    rw [numberAfter]
    split <;> omega
  have hresults := hperm.filterMap Instruction.result?
  exact {
    labels := by
      change (builder.append instruction).labels.Nodup
      rw [labels_append]
      exact h.labels
    current := hextends.labels h.current
    terminators := h.terminators_append hopen
    stands := by
      intro other hother
      rcases hmem other hother with rfl | hother
      · exact haccepts.1.mono hextends
      · exact (h.stands other hother).mono hextends
    allowed := by
      intro other hother
      rcases hmem other hother with rfl | hother
      · exact hallowed
      · exact h.allowed other hother
    results := by
      refine hresults.nodup_iff.mpr ?_
      cases hresult : instruction.result? with
      | none => rw [List.filterMap_cons_none hresult]; exact h.results
      | some name =>
        rw [List.filterMap_cons_some hresult, List.nodup_cons]
        refine ⟨?_, h.results⟩
        intro hused
        obtain ⟨number, hlt, hnumber⟩ := h.numbers name hused
        have hnext : name = toString builder.nextValue := haccepts.2 name hresult
        have := Nat.repr_injective (hnumber.symm.trans hnext)
        omega
    numbers := by
      intro name hname
      have hname' := hresults.mem_iff.mp hname
      cases hresult : instruction.result? with
      | none =>
        rw [List.filterMap_cons_none hresult] at hname'
        obtain ⟨number, hlt, hnumber⟩ := h.numbers name hname'
        exact ⟨number, hlt.trans_le hbound, hnumber⟩
      | some new =>
        rw [List.filterMap_cons_some hresult, List.mem_cons] at hname'
        rcases hname' with rfl | hname'
        · refine ⟨builder.nextValue, ?_, haccepts.2 name hresult⟩
          change builder.nextValue < builder.numberAfter instruction
          rw [numberAfter, hresult]
          exact Nat.lt_succ_self _
        · obtain ⟨number, hlt, hnumber⟩ := h.numbers name hname'
          exact ⟨number, hlt.trans_le hbound, hnumber⟩
    names := h.names
    declarations := h.declarations
    globals := h.globals
    texts := h.texts }

/-- Every small change keeps a builder sound. -/
theorem change (h : builder.Sound additions) (hchange : Change additions builder later) :
    later.Sound additions := by
  cases hchange with
  | number =>
    exact { h with
      numbers := fun name hname =>
        (h.numbers name hname).imp fun _ ⟨hlt, heq⟩ => ⟨hlt.trans (Nat.lt_succ_self _), heq⟩ }
  | push instruction hopen haccepts hallowed => exact h.push hopen haccepts hallowed
  | declare name signature hname hnew hallowed => exact h.declare hname hnew hallowed
  | string text hallowed => exact h.string hallowed
  | block label hlabel => exact h.block hlabel
  | position label hlabel => exact { h with current := hlabel }

theorem run {last : Builder} (h : builder.Sound additions)
    (hlater : Later additions builder last) : last.Sound additions := by
  induction hlater with
  | refl => exact h
  | tail _ hchange ih => exact ih.change hchange

end Sound

/-- A new builder is sound. -/
theorem sound_create {name : String} {qubits results : Int}
    (h : create name qubits results = .ok builder) : builder.Sound additions := by
  rw [create] at h
  split at h
  · cases h
  · split at h
    · cases h
    · cases h
      exact {
        labels := List.nodup_singleton _
        current := List.mem_singleton_self _
        terminators := fun block hblock => by
          rw [List.mem_singleton.mp hblock]
          exact fun _ hnil => absurd hnil List.not_mem_nil
        stands := fun _ hnil => absurd hnil List.not_mem_nil
        allowed := fun _ hnil => absurd hnil List.not_mem_nil
        results := List.nodup_nil
        numbers := fun _ hnil => absurd hnil List.not_mem_nil
        names := List.nodup_nil
        declarations := fun _ hnil => absurd hnil List.not_mem_nil
        globals := rfl
        texts := fun _ hnil => absurd hnil List.not_mem_nil }

end Builder

end QuantumIR
