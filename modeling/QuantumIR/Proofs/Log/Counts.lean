import Mathlib
import QuantumIR.GateLog
import QuantumIR.Proofs.Execution.Sizes

/-!
The counts of a gate log. The lines of a log are the operations of a run one by one, and the count
of qubits covers all indices of qubits in them. The count of outcomes is that of the qubits as well,
so it covers the indices of results only if there are no more results than qubits.
-/

namespace QuantumIR

namespace Machine

variable {module : Module} {limits : Limits} {start machine : Machine}
  {history : List CatalogCall}

/-- A call that measures into a result uses that result. -/
theorem mem_results_of_result? {made : CatalogCall} {operation : Operation} {result : Nat}
    (hperforms : Run.Performs module made.intrinsic made.args made.before made.effect made.after)
    (hoperation : made.effect.operation = some operation)
    (hresult : operation.result? = some result) : result ∈ made.results := by
  obtain ⟨hintrinsic, hargs⟩ := hperforms.eq_data hoperation
  rw [CatalogCall.results, hintrinsic, hargs]
  cases operation with
  | measureInto | measureReset =>
    cases hresult
    exact List.mem_singleton_self _
  | _ => cases hresult

/-- All that was called along a run was done by the rules of the catalog. -/
theorem Runs.performs (h : Runs module limits start history machine) : ∀ made ∈ history,
    Run.Performs module made.intrinsic made.args made.before made.effect made.after := by
  induction h with
  | refl => exact fun made hmade => absurd hmade List.not_mem_nil
  | @step history machine next call _ hstep ih =>
    intro made hmade
    rcases List.mem_append.mp hmade with hmade | hmade
    · exact ih made hmade
    · rcases hstep.state_cases with ⟨rfl, -⟩ | ⟨last, rfl, -, hperforms, -⟩
      · cases hmade
      · rw [List.mem_singleton.mp hmade]
        exact hperforms

end Machine

namespace Module

variable {module : Module} {limits : Limits} {entryPoint : Option String}
  {stream : Option (List Bool)} {operations : List Operation} {metadata : RunMetadata}

/-- The sizes of a run that succeeds cover the indices in its operations. -/
theorem Stops.indices_lt
    (h : module.Stops limits entryPoint stream operations (.ok metadata)) :
    ∀ operation ∈ operations, (∀ qubit ∈ operation.qubits, qubit < metadata.qubitCount) ∧
      ∀ result ∈ operation.result?, result < metadata.resultCount := by
  rcases h.cases with ⟨error, -, -, herror⟩ | ⟨start, last, hprepare, hreaches, hlast⟩
  · cases herror
  obtain ⟨entry, -, rfl⟩ := exists_start_of_prepare hprepare
  obtain ⟨history, hruns, rfl⟩ := Machine.reaches_iff_runs.mp hreaches
  obtain ⟨-, hsized⟩ := hruns.sized
  rw [← Machine.metadata_of_outcome? hlast, RunState.metadata, hsized.qubitCount,
    hsized.resultCount]
  obtain ⟨-, hqubits⟩ := Run.isGreatest_max_cover (entry.qubitCount?.getD 0)
    (Machine.allocationsOf history) (Machine.operationsOf history) Operation.qubits
  obtain ⟨-, hresults⟩ := Run.isGreatest_cover_flatMap (entry.resultCount?.getD 0) history
    CatalogCall.results
  intro operation hoperation
  refine ⟨fun qubit hqubit => ?_, fun result hresult => ?_⟩
  · exact hqubits (Or.inr (Or.inl ⟨operation, hoperation, qubit, hqubit, rfl⟩))
  · obtain ⟨made, hmade, heffect⟩ := List.mem_filterMap.mp hoperation
    have huses := Machine.mem_results_of_result? (hruns.performs made hmade) heffect hresult
    exact hresults (Or.inr ⟨made, hmade, result, huses, rfl⟩)

end Module

namespace GateLog

/-- Each operation that a log is shown is added to those before. -/
theorem watch_observer (operations : List Operation) (log : GateLog) :
    observer.watch operations log =
      { log with operations := log.operations ++ operations.toArray } := by
  induction operations generalizing log with
  | nil => simp [Observer.watch]
  | cons operation rest ih =>
    have hrest := ih (observer.apply operation log)
    have hpush : log.operations.push operation ++ rest.toArray =
        log.operations ++ (operation :: rest).toArray := by simp
    exact hrest.trans (congrArg (GateLog.mk · log.qubitCount log.outCount) hpush)

variable {module : Module} {limits : Limits} {entryPoint : Option String}
  {stream : Option (List Bool)} {metadata : RunMetadata} {log : GateLog}

/-- The log of a run that succeeds shows the operations of the run one by one, below two counts of
qubits. The first covers all qubits in the lines, and the second covers all results in them if the
run used no more results than qubits. -/
theorem counts_of_evaluate
    (h : module.evaluate? limits observer entryPoint stream empty = some (.ok metadata, log)) :
    ∃ operations, module.Stops limits entryPoint stream operations (.ok metadata) ∧
      log.operations.toList = operations ∧ log.lines = operations.map Operation.line ∧
      log.qubitCount = metadata.qubitCount ∧ log.outCount = metadata.qubitCount ∧
      ∀ operation ∈ operations, (∀ qubit ∈ operation.qubits, qubit < log.qubitCount) ∧
        ∀ result ∈ operation.result?, result < metadata.resultCount ∧
          (metadata.resultCount ≤ metadata.qubitCount → result < log.outCount) := by
  obtain ⟨operations, hstops, hfinal⟩ := Module.exists_stops h
  rw [watch_observer] at hfinal
  have hlog : log = ⟨operations.toArray, metadata.qubitCount, metadata.qubitCount⟩ := by
    rw [hfinal]
    simp [empty, observer, Observer.conclude]
  subst hlog
  refine ⟨operations, hstops, rfl, rfl, rfl, rfl, fun operation hoperation => ?_⟩
  obtain ⟨hqubits, hresults⟩ := hstops.indices_lt operation hoperation
  exact ⟨hqubits, fun result hresult =>
    ⟨hresults result hresult, fun hfew => (hresults result hresult).trans_le hfew⟩⟩

/-- Measures its only qubit twice, into the first result and into another one. -/
def remeasuringMain (results : String) (result : Nat) : Function where
  name := "main"
  ret := .void
  params := []
  attributes := [.flag "entry_point", .keyValue "required_num_qubits" "1",
    .keyValue "required_num_results" results]
  blocks := [⟨"entry", [
    .call none .void "__quantum__qis__mz__body" [.qubit 0, .result 0],
    .call none .void "__quantum__qis__mz__body" [.qubit 0, .result result],
    .ret none]⟩]

def remeasuring (results : String) (result : Nat) : Module where
  name := "remeasuring"
  source := none
  opaqueTypes := ["Qubit", "Result"]
  globals := []
  functions := [remeasuringMain results result,
    Function.declaration "__quantum__qis__mz__body" [.qubit, .result] .void]

/-- With one result the counts cover all indices. -/
theorem counts_remeasuring : ∃ metadata log,
    (remeasuring "1" 0).evaluate? .standard observer none none empty = some (.ok metadata, log) ∧
      log.lines = [.measureInto 0 0, .measureInto 0 0].map Operation.line ∧
      log.qubitCount = 1 ∧ log.outCount = 1 ∧ metadata.resultCount ≤ metadata.qubitCount ∧
      0 < log.outCount := by
  have hprepare : (remeasuring "1" 0).prepare none none =
      .ok (.start (remeasuringMain "1" 0) none) :=
    Module.prepare_of_verify rfl rfl (by decide) none
  have hreaches : ∃ operations last metadata,
      Machine.Reaches (remeasuring "1" 0) .standard (.start (remeasuringMain "1" 0) none)
        operations last ∧
      last.outcome? (remeasuring "1" 0) .standard = some (.ok metadata) ∧
      operations = [.measureInto 0 0, .measureInto 0 0] ∧
      metadata.qubitCount = 1 ∧ metadata.resultCount = 1 :=
    ⟨_, _, _, .step rfl (.step rfl (.step rfl (.refl _))), rfl, rfl, rfl, rfl⟩
  obtain ⟨operations, last, metadata, hreaches, hlast, hoperations, hqubits, hresults⟩ := hreaches
  have hstops := Module.stops_of_reaches hprepare hreaches hlast
  have hlog := hstops GateLog observer empty
  obtain ⟨shown, hshown, -, hlines, hqubitCount, houtCount, hall⟩ := counts_of_evaluate hlog
  obtain ⟨rfl, -⟩ := hshown.unique hstops
  have hfew : metadata.resultCount ≤ metadata.qubitCount := by omega
  have hfirst : Operation.measureInto 0 0 ∈ shown := by simp [hoperations]
  exact ⟨metadata, _, hlog, by rw [hlines, hoperations], by rw [hqubitCount, hqubits],
    by rw [houtCount, hqubits], hfew, ((hall _ hfirst).2 0 rfl).2 hfew⟩

/-- With two results the count above the lines does not cover the second one. -/
theorem outCount_remeasuring : (remeasuring "2" 1).verify = .ok () ∧ ∃ metadata log,
    (remeasuring "2" 1).evaluate? .standard observer none none empty = some (.ok metadata, log) ∧
      log.operations = #[.measureInto 0 0, .measureInto 0 1] ∧
      metadata.resultCount = 2 ∧ log.outCount = 1 := by
  have hverify : (remeasuring "2" 1).verify = .ok () := rfl
  have hprepare : (remeasuring "2" 1).prepare none none =
      .ok (.start (remeasuringMain "2" 1) none) :=
    Module.prepare_of_verify hverify rfl (by decide) none
  have hreaches : ∃ operations last metadata,
      Machine.Reaches (remeasuring "2" 1) .standard (.start (remeasuringMain "2" 1) none)
        operations last ∧
      last.outcome? (remeasuring "2" 1) .standard = some (.ok metadata) ∧
      operations = [.measureInto 0 0, .measureInto 0 1] ∧
      metadata.qubitCount = 1 ∧ metadata.resultCount = 2 :=
    ⟨_, _, _, .step rfl (.step rfl (.step rfl (.refl _))), rfl, rfl, rfl, rfl⟩
  obtain ⟨operations, last, metadata, hreaches, hlast, rfl, hqubits, hresults⟩ := hreaches
  have hlog := Module.stops_of_reaches hprepare hreaches hlast GateLog observer empty
  exact ⟨hverify, metadata, _, hlog, rfl, hresults, hqubits⟩

end GateLog

end QuantumIR
