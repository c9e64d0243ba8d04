import QuantumIR.Proofs.Graph.Walk
import QuantumIR.Proofs.Verified.Execution

/-!
How a run of a verified module starts. All that it can come to call is defined or declared in the
module, so it starts at its entry point unless it may call a declared function that the catalog
does not have.
-/

namespace QuantumIR

open Verification

namespace Module

variable {module : Module} {entry : Function} {qubits results : Nat}

theorem mem_calls {caller callee : String} : (caller, callee) ∈ module.calls ↔
    ∃ function ∈ module.functions, function.name = caller ∧
      ∃ instruction ∈ function.instructions, instruction.callee? = some callee := by
  simp only [calls, List.mem_eraseDups, List.mem_flatMap, List.mem_map, List.mem_filterMap,
    Prod.mk.injEq]
  constructor
  · rintro ⟨function, hfunction, name, ⟨instruction, hmem, hcallee⟩, hname, rfl⟩
    exact ⟨function, hfunction, hname, instruction, hmem, hcallee⟩
  · rintro ⟨function, hfunction, hname, instruction, hmem, hcallee⟩
    exact ⟨function, hfunction, callee, ⟨instruction, hmem, hcallee⟩, hname, rfl⟩

/-- Every function that a verified module calls is defined or declared in it. -/
theorem isSome_function?_of_mem_walk (h : module.Verified entry qubits results)
    {root name : String} (hname : name ∈ module.callGraph.walk root) :
    (module.function? name).isSome := by
  have hnode := Graph.mem_nodes_of_mem_walk hname
  rw [callGraph, List.mem_eraseDups, List.mem_append, List.mem_map, List.mem_map] at hnode
  rcases hnode with ⟨function, hfunction, rfl⟩ | ⟨⟨caller, callee⟩, hcall, rfl⟩
  · rw [(function?_eq_some_iff h.functions).mpr ⟨hfunction, rfl⟩]
    rfl
  · obtain ⟨function, hfunction, -, instruction, hmem, hcallee⟩ := mem_calls.mp hcall
    have hdefinition : function ∈ module.definitions := by
      obtain ⟨block, hblock, -⟩ := List.mem_flatMap.mp hmem
      refine List.mem_filter.mpr ⟨hfunction, ?_⟩
      simpa [Function.isDeclaration] using List.ne_nil_of_mem hblock
    have hcalls := (h.definitions function hdefinition).calls instruction hmem
    cases instruction with
    | call result ret target args =>
      cases hcallee
      obtain ⟨found, hfound, -⟩ := hcalls
      exact Option.isSome_iff_exists.mpr ⟨found, hfound⟩
    | _ => cases hcallee

/-- What a verified module can come to call and neither defines nor finds in the catalog, it
declares. -/
theorem unsupportedFrom_eq (h : module.Verified entry qubits results) (root : String) :
    module.unsupportedFrom root = (module.declarations.map Function.name).filter fun name =>
      name ∈ module.callGraph.walk root && (Intrinsic.ofName? name).isNone := by
  have hmissing : (module.callGraph.walk root).filter (fun name =>
      (module.function? name).isNone && (Intrinsic.ofName? name).isNone) = [] := by
    rw [List.filter_eq_nil_iff]
    intro name hname
    simp [Option.isSome_iff_ne_none.mp (isSome_function?_of_mem_walk h hname)]
  rw [unsupportedFrom, hmissing, List.mergeSort_nil, List.append_nil]

/-- A verified module that declares functions of the catalog only, starts at its entry point. -/
theorem prepare_none (h : module.Verified entry qubits results)
    (hcatalog : ∀ function ∈ module.declarations, (Intrinsic.ofName? function.name).isSome)
    (stream : Option (List Bool)) : module.prepare none stream = .ok (.start entry stream) := by
  have hnone : module.unsupportedFrom entry.name = [] := by
    rw [unsupportedFrom_eq h, List.filter_eq_nil_iff]
    intro name hname
    obtain ⟨function, hfunction, rfl⟩ := List.mem_map.mp hname
    simp [Option.isSome_iff_ne_none.mp (hcatalog function hfunction)]
  rw [prepare, resolveEntry_none h]
  dsimp only [bind, Except.bind]
  rw [hnone]
  rfl

theorem prepare_of_verify (h : module.verify = .ok ()) (hentry : module.entryPoints = [entry])
    (hcatalog : ∀ function ∈ module.declarations, (Intrinsic.ofName? function.name).isSome)
    (stream : Option (List Bool)) : module.prepare none stream = .ok (.start entry stream) := by
  obtain ⟨found, _, _, hverified⟩ := verify_eq_ok_iff.mp h
  obtain rfl : found = entry := List.singleton_inj.mp (hverified.entryPoints.symm.trans hentry)
  exact prepare_none hverified hcatalog stream

/-- An evaluation starts at its entry point exactly if that can come to call no unsupported function. -/
theorem prepare_eq_ok_iff {entryPoint : Option String} {stream : Option (List Bool)}
    {start : Machine} : module.prepare entryPoint stream = .ok start ↔
      ∃ function, module.resolveEntry entryPoint = .ok function ∧
        module.unsupportedFrom function.name = [] ∧ start = .start function stream := by
  rw [prepare, bind_eq_ok]
  refine exists_congr fun function => and_congr_right fun _ => ?_
  split
  · next hnone =>
    rw [hnone]
    exact ⟨fun h => ⟨rfl, (Except.ok.inj h).symm⟩, fun h => congrArg Except.ok h.2.symm⟩
  · next hsome =>
    constructor
    · rintro ⟨⟩
    · rintro ⟨hnone, -⟩
      exact absurd hnone hsome

/-- A run starts with one frame, that of the function that it starts from. -/
theorem exists_start_of_prepare {entryPoint : Option String} {stream : Option (List Bool)}
    {start : Machine} (h : module.prepare entryPoint stream = .ok start) :
    ∃ function, module.resolveEntry entryPoint = .ok function ∧
      start = .start function stream := by
  obtain ⟨function, hfunction, -, hstart⟩ := prepare_eq_ok_iff.mp h
  exact ⟨function, hfunction, hstart⟩

end Module

end QuantumIR
