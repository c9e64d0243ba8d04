import QuantumIR.Proofs.Execution.Supported

/-!
New names and another order. The locals and the labels of each function get new names, and the
functions of a module, and the blocks of a function after the first one, stand in another order.
What is found by its name is then found by its new name, wherever it stands.
-/

namespace QuantumIR

open Verification

/-- New names for the locals and the labels of a function. Different names stay different. -/
structure Renaming where
  locals : String → String
  labels : String → String
  locals_injective : Function.Injective locals
  labels_injective : Function.Injective labels

def Value.renamed (locals : String → String) : Value → Value
  | .reg name => .reg (locals name)
  | value => value

def Operand.renamed (locals : String → String) (operand : Operand) : Operand :=
  { operand with value := operand.value.renamed locals }

/-- Replaces the labels to which a terminator goes on. -/
def Instruction.retargeted (labels : String → String) : Instruction → Instruction
  | branch target => branch (labels target)
  | branchIf condition onTrue onFalse => branchIf condition (labels onTrue) (labels onFalse)
  | instruction => instruction

def Instruction.renamed (names : Renaming) (instruction : Instruction) : Instruction :=
  ((instruction.mapValues (Value.renamed names.locals)).mapResult names.locals).retargeted
    names.labels

def Block.renamed (names : Renaming) (block : Block) : Block :=
  ⟨names.labels block.label, block.instructions.map (Instruction.renamed names)⟩

def Param.renamed (names : Renaming) (param : Param) : Param :=
  { param with name := param.name.map names.locals }

namespace Function

/-- A function with new names for its locals and labels. -/
def renamed (names : Renaming) (function : Function) : Function :=
  { function with
    params := function.params.map (Param.renamed names)
    blocks := function.blocks.map (Block.renamed names) }

/-- Whether one function is another one with the blocks after the first in another order. -/
structure Rearranges (function other : Function) : Prop where
  first : other.blocks.head? = function.blocks.head?
  blocks : other.blocks.Perm function.blocks
  rest : other = { function with blocks := other.blocks }

end Function

namespace Module

/-- A module with new names for the locals and the labels of each function. -/
def renamed (names : Function → Renaming) (module : Module) : Module :=
  { module with functions := module.functions.map fun function =>
      function.renamed (names function) }

/-- Whether one module is another one with its functions, and the blocks of each function after the
first one, in another order. -/
structure Rearranges (module other : Module) : Prop where
  functions : ∃ functions, List.Forall₂ Function.Rearranges module.functions functions ∧
    functions.Perm other.functions
  rest : other = { module with functions := other.functions }

end Module

/-- Whether a function has become another one: it has got its new names, and its blocks after the
first one stand in some order. -/
def Function.Becomes (names : Function → Renaming) (function other : Function) : Prop :=
  (function.renamed (names function)).Rearranges other

namespace Function.Becomes

variable {names : Function → Renaming} {function other : Function}

theorem name_eq (h : function.Becomes names other) : other.name = function.name := by
  rw [h.rest]
  rfl

theorem isEntryPoint_eq (h : function.Becomes names other) :
    other.isEntryPoint = function.isEntryPoint := by
  rw [h.rest]
  rfl

theorem mem_blocks (h : function.Becomes names other) {block : Block} :
    block ∈ other.blocks ↔ ∃ old ∈ function.blocks, old.renamed (names function) = block := by
  rw [h.blocks.mem_iff, renamed, List.mem_map]

theorem isDeclaration_eq (h : function.Becomes names other) :
    other.isDeclaration = function.isDeclaration := by
  rw [isDeclaration, isDeclaration, h.blocks.isEmpty_eq, renamed, List.isEmpty_map]

theorem block?_eq_some_iff (hlabels : (function.blocks.map Block.label).Nodup) {label : String}
    {block : Block} :
    function.block? label = some block ↔ block ∈ function.blocks ∧ block.label = label :=
  find?_eq_some_iff_of_nodup hlabels

/-- A block is found by its new label, wherever it stands. -/
theorem block?_eq (h : function.Becomes names other)
    (hlabels : (function.blocks.map Block.label).Nodup) (label : String) :
    other.block? ((names function).labels label) =
      (function.block? label).map (Block.renamed (names function)) := by
  have hother : (other.blocks.map Block.label).Nodup := by
    have hrenamed : (function.renamed (names function)).blocks.map Block.label =
        (function.blocks.map Block.label).map (names function).labels := by
      simp only [renamed, List.map_map]
      rfl
    rw [(h.blocks.map Block.label).nodup_iff, hrenamed]
    exact hlabels.map (names function).labels_injective
  apply Option.ext
  intro block
  rw [block?_eq_some_iff hother, h.mem_blocks, Option.map_eq_some_iff]
  simp only [block?_eq_some_iff hlabels]
  constructor
  · rintro ⟨⟨old, hold, rfl⟩, hlabel⟩
    exact ⟨old, ⟨hold, (names function).labels_injective hlabel⟩, rfl⟩
  · rintro ⟨old, ⟨hold, rfl⟩, rfl⟩
    exact ⟨⟨old, hold, rfl⟩, rfl⟩

/-- New names do not change what is called. -/
theorem calls_iff (h : function.Becomes names other) {callee : String} :
    (∃ instruction ∈ other.instructions, instruction.callee? = some callee) ↔
      ∃ instruction ∈ function.instructions, instruction.callee? = some callee := by
  have hcallee : ∀ instruction : Instruction,
      (instruction.renamed (names function)).callee? = instruction.callee? := by
    rintro (_ | _ | _ | _ | _ | _ | _ | _) <;> rfl
  have hmem : ∀ instruction, instruction ∈ other.instructions ↔ ∃ old ∈ function.instructions,
      old.renamed (names function) = instruction := by
    intro instruction
    simp only [instructions, List.mem_flatMap, h.mem_blocks]
    constructor
    · rintro ⟨_, ⟨block, hblock, rfl⟩, hinstruction⟩
      obtain ⟨old, hold, rfl⟩ := List.mem_map.mp hinstruction
      exact ⟨old, ⟨block, hblock, hold⟩, rfl⟩
    · rintro ⟨old, ⟨block, hblock, hold⟩, rfl⟩
      exact ⟨_, ⟨block, hblock, rfl⟩, List.mem_map_of_mem hold⟩
  constructor
  · rintro ⟨instruction, hinstruction, hcalls⟩
    obtain ⟨old, hold, rfl⟩ := (hmem instruction).mp hinstruction
    exact ⟨old, hold, (hcallee old).symm.trans hcalls⟩
  · rintro ⟨old, hold, hcalls⟩
    exact ⟨_, (hmem _).mpr ⟨old, hold, rfl⟩, (hcallee old).trans hcalls⟩

end Function.Becomes

namespace Module

variable {names : Function → Renaming} {module other : Module}

/-- Whether a module has become another one: its functions have become others, which stand in some
order. -/
structure Becomes (names : Function → Renaming) (module other : Module) : Prop where
  functions : ∃ functions, List.Forall₂ (Function.Becomes names) module.functions functions ∧
    functions.Perm other.functions
  rest : other = { module with functions := other.functions }

theorem Rearranges.becomes (h : (module.renamed names).Rearranges other) :
    module.Becomes names other := by
  obtain ⟨functions, hfunctions, hperm⟩ := h.functions
  rw [renamed, List.forall₂_map_left_iff] at hfunctions
  exact ⟨⟨functions, hfunctions, hperm⟩, h.rest⟩

theorem exists_of_forall₂ {α β : Type} {rel : α → β → Prop} {items : List α} {others : List β}
    (h : List.Forall₂ rel items others) {a : α} (ha : a ∈ items) : ∃ b ∈ others, rel a b := by
  induction h with
  | nil => cases ha
  | cons hhead _ ih =>
    rcases List.mem_cons.mp ha with rfl | ha
    · exact ⟨_, List.mem_cons_self, hhead⟩
    · obtain ⟨b, hb, hrel⟩ := ih ha
      exact ⟨b, List.mem_cons_of_mem _ hb, hrel⟩

namespace Becomes

theorem exists_new (h : module.Becomes names other) {function : Function}
    (hfunction : function ∈ module.functions) :
    ∃ new ∈ other.functions, function.Becomes names new := by
  obtain ⟨functions, hfunctions, hperm⟩ := h.functions
  simp only [← hperm.mem_iff]
  exact exists_of_forall₂ hfunctions hfunction

theorem exists_old (h : module.Becomes names other) {new : Function}
    (hnew : new ∈ other.functions) : ∃ function ∈ module.functions, function.Becomes names new := by
  obtain ⟨functions, hfunctions, hperm⟩ := h.functions
  exact exists_of_forall₂ hfunctions.flip (hperm.mem_iff.mpr hnew)

theorem perm_names (h : module.Becomes names other) :
    (other.functions.map Function.name).Perm (module.functions.map Function.name) := by
  obtain ⟨functions, hfunctions, hperm⟩ := h.functions
  have hnames : List.Forall₂ Eq (module.functions.map Function.name)
      (functions.map Function.name) :=
    List.rel_map (fun _ _ hbecomes => hbecomes.name_eq.symm) hfunctions
  rw [List.forall₂_eq_eq_eq] at hnames
  rw [hnames]
  exact (hperm.map Function.name).symm

/-- A function is found by its name, wherever it stands. -/
theorem rel_function? (h : module.Becomes names other)
    (hnames : (module.functions.map Function.name).Nodup) (name : String) :
    Option.Rel (Function.Becomes names) (module.function? name) (other.function? name) := by
  have hothers := h.perm_names.nodup_iff.mpr hnames
  cases hfunction : module.function? name with
  | some function =>
    obtain ⟨hmem, rfl⟩ := (function?_eq_some_iff hnames).mp hfunction
    obtain ⟨new, hnew, hbecomes⟩ := h.exists_new hmem
    rw [(function?_eq_some_iff hothers).mpr ⟨hnew, hbecomes.name_eq⟩]
    exact .some hbecomes
  | none =>
    cases hother : other.function? name with
    | none => exact .none
    | some new =>
      obtain ⟨hnew, hname⟩ := (function?_eq_some_iff hothers).mp hother
      obtain ⟨function, hmem, hbecomes⟩ := h.exists_old hnew
      have hfound := (function?_eq_some_iff hnames).mpr ⟨hmem, hbecomes.name_eq.symm.trans hname⟩
      cases hfunction.symm.trans hfound

theorem rel_definition? (h : module.Becomes names other)
    (hnames : (module.functions.map Function.name).Nodup) (name : String) :
    Option.Rel (Function.Becomes names) (module.definition? name) (other.definition? name) := by
  have hfunction := h.rel_function? hnames name
  rw [definition?, definition?]
  generalize module.function? name = found at hfunction
  generalize other.function? name = found' at hfunction
  cases hfunction with
  | none => exact .none
  | @some function new hbecomes =>
    rw [Option.filter_some, Option.filter_some, hbecomes.isDeclaration_eq]
    split
    · exact .some hbecomes
    · exact .none

/-- An entry point stays the only one. -/
theorem exists_entryPoints_eq (h : module.Becomes names other) {entry : Function}
    (hentry : module.entryPoints = [entry]) :
    ∃ new, other.entryPoints = [new] ∧ entry.Becomes names new := by
  obtain ⟨functions, hfunctions, hperm⟩ := h.functions
  have hmarked : List.Forall₂ (Function.Becomes names) module.entryPoints
      (functions.filter Function.isEntryPoint) := by
    refine List.rel_filter ?_ hfunctions
    intro function new hbecomes
    dsimp only
    rw [hbecomes.isEntryPoint_eq]
  rw [hentry, List.forall₂_cons_left_iff] at hmarked
  obtain ⟨new, rest, hbecomes, hrest, hnew⟩ := hmarked
  rw [List.forall₂_nil_left_iff.mp hrest] at hnew
  refine ⟨new, ?_, hbecomes⟩
  rw [entryPoints, ← List.perm_singleton, ← hnew]
  exact (hperm.filter Function.isEntryPoint).symm

theorem calls_eq (h : module.Becomes names other) : other.Calls = module.Calls := by
  funext caller callee
  apply propext
  constructor
  · rintro ⟨new, hnew, rfl, hcalls⟩
    obtain ⟨function, hmem, hbecomes⟩ := h.exists_old hnew
    exact ⟨function, hmem, hbecomes.name_eq.symm, hbecomes.calls_iff.mp hcalls⟩
  · rintro ⟨function, hmem, rfl, hcalls⟩
    obtain ⟨new, hnew, hbecomes⟩ := h.exists_new hmem
    exact ⟨new, hnew, hbecomes.name_eq, hbecomes.calls_iff.mpr hcalls⟩

theorem unsupported_iff (h : module.Becomes names other)
    (hnames : (module.functions.map Function.name).Nodup) (name : String) :
    other.Unsupported name ↔ module.Unsupported name := by
  have hdeclared : (∃ function ∈ other.declarations, function.name = name) ↔
      ∃ function ∈ module.declarations, function.name = name := by
    simp only [declarations, List.mem_filter]
    constructor
    · rintro ⟨new, ⟨hnew, hbody⟩, rfl⟩
      obtain ⟨function, hmem, hbecomes⟩ := h.exists_old hnew
      exact ⟨function, ⟨hmem, hbecomes.isDeclaration_eq ▸ hbody⟩, hbecomes.name_eq.symm⟩
    · rintro ⟨function, ⟨hmem, hbody⟩, rfl⟩
      obtain ⟨new, hnew, hbecomes⟩ := h.exists_new hmem
      exact ⟨new, ⟨hnew, hbecomes.isDeclaration_eq.trans hbody⟩, hbecomes.name_eq⟩
  have hmissing : other.function? name = none ↔ module.function? name = none := by
    have hfunction := h.rel_function? hnames name
    generalize module.function? name = found at hfunction
    generalize other.function? name = found' at hfunction
    cases hfunction <;> simp
  rw [Unsupported, Unsupported, hdeclared, hmissing]

/-- What is unsupported stays so, and is reported in some order. -/
theorem perm_unsupportedFrom (h : module.Becomes names other)
    (hnames : (module.functions.map Function.name).Nodup) {root : String}
    (hroot : root ∈ module.functions.map Function.name) :
    (module.unsupportedFrom root).Perm (other.unsupportedFrom root) := by
  have hothers := h.perm_names.nodup_iff.mpr hnames
  rw [List.perm_ext_iff_of_nodup (nodup_unsupportedFrom hnames root)
    (nodup_unsupportedFrom hothers root)]
  intro name
  rw [mem_unsupportedFrom_iff hroot, mem_unsupportedFrom_iff (h.perm_names.mem_iff.mpr hroot),
    CanCall, CanCall, h.calls_eq, h.unsupported_iff hnames]

end Becomes

end Module

end QuantumIR
