import QuantumIR.Proofs.Execution.Canonical
import QuantumIR.Proofs.Verified.Starting

/-!
Formatting preserves meaning. A verified module and what its canonical text spells start at the
same entry point, miss the same functions, and so have the same runs.
-/

namespace QuantumIR

namespace Module

variable {module : Module} {entry : Function} {qubits results : Nat}

theorem resolveEntry_canonical (h : module.Verified entry qubits results)
    (h' : module.canonical.Verified entry.canonical qubits results) (entryPoint : Option String) :
    module.canonical.resolveEntry entryPoint =
      Function.canonical <$> module.resolveEntry entryPoint := by
  cases entryPoint with
  | none =>
    rw [resolveEntry_none h, resolveEntry_none h']
    rfl
  | some name =>
    rw [resolveEntry, resolveEntry, definition?_canonical h.functions]
    cases module.definition? name <;> rfl

theorem mem_calls_canonical (edge : String × String) :
    edge ∈ module.canonical.calls ↔ edge ∈ module.calls := by
  obtain ⟨caller, callee⟩ := edge
  have hcallee : ∀ instruction : Instruction,
      instruction.canonical.callee? = instruction.callee? := by
    rintro (_ | _ | _ | _ | _ | _ | _ | _) <;> rfl
  rw [mem_calls, mem_calls]
  constructor
  · rintro ⟨function, hfunction, hname, instruction, hmem, hcall⟩
    obtain ⟨old, hold, rfl⟩ := mem_functions_canonical.mp hfunction
    rw [Function.instructions_canonical] at hmem
    obtain ⟨called, hcalled, rfl⟩ := List.mem_map.mp hmem
    exact ⟨old, hold, hname, called, hcalled, (hcallee called).symm.trans hcall⟩
  · rintro ⟨function, hfunction, hname, instruction, hmem, hcall⟩
    refine ⟨function.canonical, mem_functions_canonical.mpr ⟨function, hfunction, rfl⟩, hname,
      instruction.canonical, ?_, (hcallee instruction).trans hcall⟩
    rw [Function.instructions_canonical]
    exact List.mem_map_of_mem hmem

theorem mem_walk_canonical {root name : String} :
    name ∈ module.canonical.callGraph.walk root ↔ name ∈ module.callGraph.walk root := by
  have hcallees : ∀ name, name ∈ module.canonical.calls.map Prod.snd ↔
      name ∈ module.calls.map Prod.snd := by
    intro name
    simp only [List.mem_map, mem_calls_canonical]
  apply Graph.mem_walk_congr
  · intro name
    simp only [callGraph, List.mem_eraseDups, List.mem_append, hcallees,
      (names_canonical module).mem_iff]
  · exact mem_calls_canonical

theorem unsupportedFrom_canonical (h : module.Verified entry qubits results)
    (h' : module.canonical.Verified entry.canonical qubits results) (root : String) :
    module.canonical.unsupportedFrom root = module.unsupportedFrom root := by
  have hnames : module.canonical.declarations.map Function.name =
      module.declarations.map Function.name := by
    rw [declarations_canonical, List.map_map]
    rfl
  rw [unsupportedFrom_eq h, unsupportedFrom_eq h', hnames]
  apply List.filter_congr
  intro name _
  simp only [mem_walk_canonical]

theorem prepare_canonical (h : module.Verified entry qubits results)
    (h' : module.canonical.Verified entry.canonical qubits results) (entryPoint : Option String)
    (stream : Option (List Bool)) :
    module.canonical.prepare entryPoint stream =
      Machine.canonical <$> module.prepare entryPoint stream := by
  rw [prepare, prepare, resolveEntry_canonical h h']
  cases module.resolveEntry entryPoint with
  | error error => rfl
  | ok function =>
    have hname : function.canonical.name = function.name := rfl
    have hstart : Machine.start function.canonical stream =
        (Machine.start function stream).canonical := by
      rw [Machine.start, Frame.enter_canonical]
      rfl
    dsimp only [Functor.map, Except.map, bind, Except.bind]
    rw [hname, unsupportedFrom_canonical h h', hstart]
    cases module.unsupportedFrom function.name <;> rfl

/-- A verified module and what its canonical text spells have the same runs. -/
theorem evaluate?_canonical (h : module.verify = .ok ()) (htruth : module.Truthful)
    (limits : Limits) {σ : Type} (observer : Observer σ) (entryPoint : Option String)
    (stream : Option (List Bool)) (seen : σ) :
    module.canonical.evaluate? limits observer entryPoint stream seen =
      module.evaluate? limits observer entryPoint stream seen := by
  obtain ⟨entry, qubits, results, hverified⟩ := verify_eq_ok_iff.mp h
  have hpoints := entryPoints_canonical module
  rw [hverified.entryPoints, List.map_singleton, List.perm_singleton] at hpoints
  have hcanonical : module.canonical.Verified entry.canonical qubits results :=
    verified_canonical.mpr ⟨hpoints, hverified.functions, hverified.body, hverified.qubitCount,
      hverified.resultCount, hverified.definitions, hverified.widths, hverified.indices⟩
  rw [evaluate?, evaluate?, prepare_canonical hverified hcanonical]
  cases hprepare : module.prepare entryPoint stream with
  | error error => rfl
  | ok machine =>
    exact Machine.run_canonical hverified htruth observer (placed_of_prepare hverified hprepare)
      seen

/-- Formatting preserves meaning where the constants that are read as truth values are zero or odd:
the canonical text of a loaded module is loaded again, and whatever the limits, the entry point and
the stream, both modules go through the same operations to the same outcome. -/
theorem evaluate?_load_text {source : String} (h : load source = .ok module)
    (hcount : module.attributeGroups.length ≤ UInt32.size) (htruth : module.Truthful) :
    ∃ again, load module.text = .ok again ∧
      ∀ (limits : Limits) (σ : Type) (observer : Observer σ) (entryPoint : Option String)
        (stream : Option (List Bool)) (seen : σ),
        again.evaluate? limits observer entryPoint stream seen =
          module.evaluate? limits observer entryPoint stream seen := by
  obtain ⟨hparse, hverify⟩ := load_eq_ok_iff.mp h
  have hagain := parse_text (writable_of_parse hparse) hcount
  have hverify' := (verify_canonical module).mpr hverify
  exact ⟨module.canonical, load_eq_ok_iff.mpr ⟨hagain, hverify'⟩,
    fun limits σ => evaluate?_canonical hverify htruth limits⟩

/-- A text that goes one of two ways, with a definition before a declaration. -/
def branchingText (truth : String) : String :=
  "define void @main() #0 \x7b\nentry:\n  br i1 " ++ truth ++ ", label %yes, label %no\n" ++
  "yes:\n  call void @__quantum__qis__h__body(%Qubit* null)\n  ret void\nno:\n  ret void\n\x7d\n" ++
  "declare void @__quantum__qis__h__body(%Qubit*)\n" ++
  "attributes #0 = \x7b \"entry_point\" \"num_required_qubits\"=\"1\" " ++
  "\"num_required_results\"=\"0\" \x7d\n"

def branchingMain (n : Int64) : Function where
  name := "main"
  ret := .void
  params := []
  attributes := [.flag "entry_point", .keyValue "num_required_qubits" "1",
    .keyValue "num_required_results" "0"]
  blocks := [
    ⟨"entry", [.branchIf (.int n) "yes" "no"]⟩,
    ⟨"yes", [.call none .void "__quantum__qis__h__body" [.qubit 0], .ret none]⟩,
    ⟨"no", [.ret none]⟩]

/-- What the text spells. -/
def branching (n : Int64) : Module where
  name := ""
  source := none
  opaqueTypes := []
  globals := []
  functions := [branchingMain n, Function.declaration "__quantum__qis__h__body" [.qubit] .void]

theorem evaluate?_branchingText : load (branchingText "3") = .ok (branching 3) ∧
    (branching 3).Truthful ∧ ∃ again, load (branching 3).text = .ok again ∧
      again.evaluate? .standard .trace none none #[] =
        (branching 3).evaluate? .standard .trace none none #[] := by
  have hload : load (branchingText "3") = .ok (branching 3) := eq_ok_of_toOption (by decide +kernel)
  have htruth : (branching 3).Truthful := by decide
  obtain ⟨again, hagain, hruns⟩ := evaluate?_load_text hload (by decide) htruth
  exact ⟨hload, htruth, again, hagain, hruns _ _ _ _ _ _⟩

/-- The run of a verified module that declares functions of the catalog only, by its steps. -/
theorem evaluate?_of_reaches (hverify : module.verify = .ok ())
    (hentry : module.entryPoints = [entry])
    (hcatalog : ∀ function ∈ module.declarations, (Intrinsic.ofName? function.name).isSome)
    {limits : Limits} {stream : Option (List Bool)} {operations : List Operation} {last : Machine}
    {outcome : Except EvalError RunMetadata} {σ : Type} {observer : Observer σ} (seen : σ)
    (hreaches : Machine.Reaches module limits (.start entry stream) operations last)
    (hlast : last.outcome? module limits = some outcome) :
    module.evaluate? limits observer none stream seen =
      some (outcome, observer.conclude outcome (observer.watch operations seen)) := by
  rw [evaluate?, prepare_of_verify hverify hentry hcatalog]
  exact hreaches.run_eq hlast seen

/-- A constant that is even and not zero stands for false, but is written as true. -/
theorem evaluate?_branching_two : ∃ again metadata metadata',
    load (branchingText "2") = .ok (branching 2) ∧ load (branching 2).text = .ok again ∧
    (branching 2).evaluate? .standard .trace none none #[] = some (.ok metadata, #[]) ∧
    again.evaluate? .standard .trace none none #[] =
      some (.ok metadata', #[.single .h 0]) := by
  have hload : load (branchingText "2") = .ok (branching 2) := eq_ok_of_toOption (by decide +kernel)
  have hagain : load (branching 2).text = .ok (branching 2).canonical :=
    eq_ok_of_toOption (by decide +kernel)
  have hzero : ∃ operations last metadata, Machine.Reaches (branching 2) .standard
      (.start (branchingMain 2) none) operations last ∧
      last.outcome? (branching 2) .standard = some (.ok metadata) ∧ operations = [] :=
    ⟨_, _, _, .step rfl (.step rfl (.refl _)), rfl, rfl⟩
  have hone : ∃ operations last metadata, Machine.Reaches (branching 2).canonical .standard
      (.start (branchingMain 2).canonical none) operations last ∧
      last.outcome? (branching 2).canonical .standard = some (.ok metadata) ∧
      operations = [.single .h 0] :=
    ⟨_, _, _, .step rfl (.step rfl (.step rfl (.refl _))), rfl, rfl⟩
  obtain ⟨_, _, metadata, hreaches, hlast, rfl⟩ := hzero
  obtain ⟨_, _, metadata', hreaches', hlast', rfl⟩ := hone
  exact ⟨(branching 2).canonical, metadata, metadata', hload, hagain,
    evaluate?_of_reaches rfl rfl (by decide) #[] hreaches hlast,
    evaluate?_of_reaches rfl rfl (by decide) #[] hreaches' hlast'⟩

end Module

end QuantumIR
