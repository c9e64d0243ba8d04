import QuantumIR.Loading
import QuantumIR.Proofs.Reading.Canonical
import QuantumIR.Proofs.Verified.Rules

/-!
The rules do not tell a module from the one that its canonical text spells: they do not look at
constants other than static indices, nor at the order of functions.
-/

namespace QuantumIR

theorem Value.index?_canonical (value : Value) (ty : Ty) :
    (value.canonical ty).index? = value.index? := by
  cases value with
  | int n =>
    have hcanonical : (Value.int n).canonical ty =
        if ty = .bool then .int (if n = 0 then 0 else 1)
        else if ty.isDouble then .double (.ofInt n.toInt) else .int n := rfl
    rw [hcanonical]
    split
    · rfl
    · split <;> rfl
  | _ => rfl

namespace Instruction

variable (instruction : Instruction)

theorem result?_canonical : instruction.canonical.result? = instruction.result? := by
  cases instruction <;> rfl

theorem successors_canonical : instruction.canonical.successors = instruction.successors := by
  cases instruction <;> rfl

theorem types_canonical : instruction.canonical.types = instruction.types := by
  cases instruction with
  | call result ret callee args =>
    simp [canonical, types, operands, List.filterMap_map, Function.comp_def, Operand.canonical]
  | ret operand => cases operand <;> rfl
  | _ => rfl

theorem indicesBelow_canonical (count : Register → Nat) :
    instruction.canonical.IndicesBelow count ↔ instruction.IndicesBelow count := by
  cases instruction with
  | call result ret callee args =>
    have hindex : ∀ arg : Operand, arg.canonical.value.index? = arg.value.index? :=
      fun arg => arg.value.index?_canonical arg.ty
    constructor
    · intro h place arg harg register hregister index harg'
      refine h place arg.canonical ?_ register hregister index ((hindex arg).trans harg')
      rw [List.getElem?_map, harg, Option.map_some]
    · intro h place arg harg register hregister index harg'
      rw [List.getElem?_map, Option.map_eq_some_iff] at harg
      obtain ⟨old, hold, rfl⟩ := harg
      exact h place old hold register hregister index ((hindex old).symm.trans harg')
  | _ => exact Iff.rfl

theorem callsIn_canonical {module other : Module}
    (h : ∀ name count, (∃ target, module.function? name = some target ∧
      target.params.length = count) → ∃ target, other.function? name = some target ∧
        target.params.length = count) (hcalls : instruction.CallsIn module) :
    instruction.canonical.CallsIn other := by
  cases instruction with
  | call result ret callee args =>
    have hlength : (args.map Operand.canonical).length = args.length := List.length_map _
    simpa only [canonical, CallsIn, hlength] using h callee args.length hcalls
  | _ => trivial

end Instruction

theorem Block.terminates_canonical {labels : List String} {block : Block} :
    block.canonical.Terminates labels ↔ block.Terminates labels := by
  constructor
  · rintro ⟨body, last, hsplit, hterminator, hbody, htargets⟩
    obtain ⟨old, rest, hinstructions, rfl, hlast⟩ := List.map_eq_append_iff.mp hsplit
    obtain ⟨oldLast, rfl, rfl⟩ := List.map_eq_singleton_iff.mp hlast
    rw [isTerminator_canonical] at hterminator
    rw [Instruction.successors_canonical] at htargets
    refine ⟨old, oldLast, hinstructions, hterminator, ?_, htargets⟩
    intro instruction hmem
    rw [← isTerminator_canonical]
    exact hbody _ (List.mem_map_of_mem hmem)
  · rintro ⟨body, last, hsplit, hterminator, hbody, htargets⟩
    refine ⟨body.map Instruction.canonical, last.canonical, ?_, ?_, ?_, ?_⟩
    · simp [canonical, hsplit]
    · rw [isTerminator_canonical]
      exact hterminator
    · intro instruction hmem
      obtain ⟨old, hold, rfl⟩ := List.mem_map.mp hmem
      rw [isTerminator_canonical]
      exact hbody old hold
    · rw [Instruction.successors_canonical]
      exact htargets

namespace Function

variable (function : Function)

theorem labels_canonical :
    function.canonical.blocks.map Block.label = function.blocks.map Block.label := by
  rw [canonical, List.map_map]
  rfl

theorem instructions_canonical :
    function.canonical.instructions = function.instructions.map Instruction.canonical := by
  rw [instructions, canonical, instructions, List.flatMap_map, List.map_flatMap]
  rfl

theorem types_canonical : function.canonical.types = function.types := by
  rw [types, types, instructions_canonical, List.flatMap_map]
  simp only [Instruction.types_canonical]
  rfl

theorem boundNames_canonical : function.canonical.boundNames = function.boundNames := by
  have hresults : Instruction.result? ∘ Instruction.canonical = Instruction.result? :=
    funext Instruction.result?_canonical
  rw [boundNames, boundNames, instructions_canonical, List.filterMap_map, hresults]
  rfl

/-- Whether a function is well-formed depends on the module by its callees only. -/
theorem wellFormed_canonical {module other : Module}
    (h : ∀ name count, (∃ target, module.function? name = some target ∧
      target.params.length = count) ↔ ∃ target, other.function? name = some target ∧
        target.params.length = count) :
    function.canonical.WellFormed other ↔ function.WellFormed module := by
  constructor
  · intro hcanonical
    have hblocks := hcanonical.blocks
    have hcalls := hcanonical.calls
    rw [labels_canonical] at hblocks
    rw [instructions_canonical] at hcalls
    refine ⟨function.labels_canonical ▸ hcanonical.labels, ?_,
      function.boundNames_canonical ▸ hcanonical.assignments, ?_⟩
    · intro block hblock
      exact Block.terminates_canonical.mp (hblocks block.canonical (List.mem_map_of_mem hblock))
    · intro instruction hmem
      have hcall := hcalls instruction.canonical (List.mem_map_of_mem hmem)
      cases instruction with
      | call result ret callee args =>
        have hlength : (args.map Operand.canonical).length = args.length := List.length_map _
        simpa only [Instruction.canonical, Instruction.CallsIn, hlength, ← h] using hcall
      | _ => trivial
  · intro hformed
    refine ⟨function.labels_canonical.symm ▸ hformed.labels, ?_,
      function.boundNames_canonical.symm ▸ hformed.assignments, ?_⟩
    · rw [labels_canonical]
      intro block hblock
      obtain ⟨old, hold, rfl⟩ := List.mem_map.mp hblock
      exact Block.terminates_canonical.mpr (hformed.blocks old hold)
    · rw [instructions_canonical]
      intro instruction hmem
      obtain ⟨old, hold, rfl⟩ := List.mem_map.mp hmem
      exact old.callsIn_canonical (fun name count => (h name count).mp) (hformed.calls old hold)

end Function

namespace Module

variable {module : Module}

/-- The functions in the order of the canonical text. -/
theorem perm_functions (module : Module) :
    (module.declarations ++ module.definitions).Perm module.functions :=
  List.filter_append_perm Function.isDeclaration module.functions

theorem names_canonical (module : Module) :
    (module.canonical.functions.map Function.name).Perm (module.functions.map Function.name) := by
  have hsame : module.canonical.functions.map Function.name =
      (module.declarations ++ module.definitions).map Function.name := by
    rw [canonical, List.map_map]
    rfl
  rw [hsame]
  exact (perm_functions module).map _

theorem mem_functions_canonical {function : Function} :
    function ∈ module.canonical.functions ↔ ∃ old ∈ module.functions, old.canonical = function := by
  rw [canonical, List.mem_map]
  simp only [(perm_functions module).mem_iff]

theorem exists_function?_canonical (hnames : (module.functions.map Function.name).Nodup)
    (name : String) (count : Nat) :
    (∃ target, module.function? name = some target ∧ target.params.length = count) ↔
      ∃ target, module.canonical.function? name = some target ∧ target.params.length = count := by
  have hcanonical := (names_canonical module).nodup_iff.mpr hnames
  simp only [function?_eq_some_iff hnames, function?_eq_some_iff hcanonical,
    mem_functions_canonical]
  constructor
  · rintro ⟨target, ⟨hmem, hname⟩, hlength⟩
    exact ⟨target.canonical, ⟨⟨target, hmem, rfl⟩, hname⟩, hlength⟩
  · rintro ⟨_, ⟨⟨old, hmem, rfl⟩, hname⟩, hlength⟩
    exact ⟨old, ⟨hmem, hname⟩, hlength⟩

theorem entryPoints_canonical (module : Module) : module.canonical.entryPoints.Perm
    (module.entryPoints.map Function.canonical) := by
  have hfunctions : module.canonical.entryPoints =
      ((module.declarations ++ module.definitions).map Function.canonical).filter
        Function.isEntryPoint := rfl
  rw [hfunctions, filter_canonical _ fun _ => rfl]
  exact ((perm_functions module).filter _).map _

theorem mem_definitions_canonical {function : Function} :
    function ∈ module.canonical.definitions ↔
      ∃ old ∈ module.definitions, old.canonical = function := by
  rw [definitions_canonical, List.mem_map]

/-- What its canonical text spells keeps all rules that a module keeps, and no others. -/
theorem verified_canonical {entry : Function} {qubits results : Nat} :
    module.canonical.Verified entry.canonical qubits results ↔
      module.canonical.entryPoints = [entry.canonical] ∧
      (module.functions.map Function.name).Nodup ∧ entry.isDeclaration = false ∧
      entry.qubitCount? = some qubits ∧ entry.resultCount? = some results ∧
      (∀ function ∈ module.definitions, function.WellFormed module) ∧
      (∀ function ∈ module.functions, ∀ ty ∈ function.types, ty.Supported) ∧
      ∀ instruction ∈ entry.instructions,
        instruction.IndicesBelow (registerCounts qubits results) := by
  have hdefinitions : (module.functions.map Function.name).Nodup →
      ((∀ function ∈ module.canonical.definitions, function.WellFormed module.canonical) ↔
        ∀ function ∈ module.definitions, function.WellFormed module) := by
    intro hnames
    have hcallees := exists_function?_canonical hnames
    constructor
    · intro h function hfunction
      exact (function.wellFormed_canonical hcallees).mp
        (h _ (mem_definitions_canonical.mpr ⟨function, hfunction, rfl⟩))
    · intro h function hfunction
      obtain ⟨old, hold, rfl⟩ := mem_definitions_canonical.mp hfunction
      exact (old.wellFormed_canonical hcallees).mpr (h old hold)
  have hwidths : (∀ function ∈ module.canonical.functions, ∀ ty ∈ function.types, ty.Supported) ↔
      ∀ function ∈ module.functions, ∀ ty ∈ function.types, ty.Supported := by
    constructor
    · intro h function hfunction
      rw [← function.types_canonical]
      exact h _ (mem_functions_canonical.mpr ⟨function, hfunction, rfl⟩)
    · intro h function hfunction
      obtain ⟨old, hold, rfl⟩ := mem_functions_canonical.mp hfunction
      rw [old.types_canonical]
      exact h old hold
  have hindices : (∀ instruction ∈ entry.canonical.instructions,
      instruction.IndicesBelow (registerCounts qubits results)) ↔
      ∀ instruction ∈ entry.instructions,
        instruction.IndicesBelow (registerCounts qubits results) := by
    rw [entry.instructions_canonical, List.forall_mem_map]
    simp only [Instruction.indicesBelow_canonical]
  constructor
  · intro h
    have hnames := (names_canonical module).nodup_iff.mp h.functions
    exact ⟨h.entryPoints, hnames, entry.isDeclaration_canonical ▸ h.body, h.qubitCount,
      h.resultCount, (hdefinitions hnames).mp h.definitions, hwidths.mp h.widths,
      hindices.mp h.indices⟩
  · rintro ⟨hpoints, hnames, hbody, hqubits, hresults, hformed, hsupported, hbelow⟩
    exact ⟨⟨(names_canonical module).nodup_iff.mpr hnames, hpoints,
      entry.isDeclaration_canonical.symm ▸ hbody, hqubits, hresults,
      (hdefinitions hnames).mpr hformed⟩, hwidths.mpr hsupported, hindices.mpr hbelow⟩

/-- What the canonical text of a module spells is accepted exactly if the module is. -/
theorem verify_canonical (module : Module) :
    module.canonical.verify = .ok () ↔ module.verify = .ok () := by
  rw [verify_eq_ok_iff, verify_eq_ok_iff]
  have hpoints := entryPoints_canonical module
  constructor
  · rintro ⟨found, qubits, results, h⟩
    rw [h.entryPoints] at hpoints
    obtain ⟨entry, hentry, rfl⟩ := List.map_eq_singleton_iff.mp (List.singleton_perm.mp hpoints).symm
    obtain ⟨-, hnames, hbody, hqubits, hresults, hformed, hwidths, hbelow⟩ :=
      verified_canonical.mp h
    exact ⟨entry, qubits, results,
      ⟨hnames, hentry, hbody, hqubits, hresults, hformed⟩, hwidths, hbelow⟩
  · rintro ⟨entry, qubits, results, h⟩
    rw [h.entryPoints, List.map_singleton] at hpoints
    exact ⟨entry.canonical, qubits, results, verified_canonical.mpr
      ⟨List.perm_singleton.mp hpoints, h.functions, h.body, h.qubitCount, h.resultCount,
        h.definitions, h.widths, h.indices⟩⟩

/-- A text is loaded exactly if it is read and what it spells is accepted. -/
theorem load_eq_ok_iff {source : String} :
    load source = .ok module ↔ parse source = .ok module ∧ module.verify = .ok () := by
  have hmap : ∀ {ε ε' α : Type} (f : ε → ε') (result : Except ε α) (a : α),
      result.mapError f = .ok a ↔ result = .ok a := by
    intro ε ε' α f result a
    cases result <;> simp [Except.mapError]
  simp only [load, Verification.bind_eq_ok, hmap]
  constructor
  · rintro ⟨found, hparse, _, hverify, ⟨⟩⟩
    exact ⟨hparse, hverify⟩
  · rintro ⟨hparse, hverify⟩
    exact ⟨module, hparse, (), hverify, rfl⟩

end Module

end QuantumIR
