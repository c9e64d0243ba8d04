import QuantumIR.Proofs.Execution.Catalog
import QuantumIR.Proofs.Verified.Starting

/-!
Where the outcomes of a stream go. A measurement takes the next outcome, and so does the first
read of a result that nothing was measured into; a later read finds what the result holds, and a
record takes nothing. Accesses to outcomes are read off the calls that a run makes; that they
account for the stream, the results and the measurements is kept by every call.
-/

namespace QuantumIR

/-- How a program comes by an outcome. -/
inductive Access where
  | measured (measurement : Measurement)
  | read (result : Nat) (value : Bool)
  | recorded (result : Nat) (value : Bool)
  deriving DecidableEq, Repr

namespace Access

def value : Access → Bool
  | measured measurement => measurement.value
  | read _ value | recorded _ value => value

def measurement? : Access → Option Measurement
  | measured measurement => some measurement
  | read .. | recorded .. => none

/-- The outcome that is measured into a result. -/
def measuredInto? (result : Nat) : Access → Option Bool
  | measured measurement => if measurement.result = some result then some measurement.value else none
  | read .. | recorded .. => none

/-- The outcome that is read of a result. -/
def readOf? (result : Nat) : Access → Option Bool
  | read found value => if found = result then some value else none
  | measured _ | recorded .. => none

/-- The outcome that a result holds after some accesses: that of the most recent measurement into
it or, if nothing was measured into it, that of the first read. -/
def held (accesses : List Access) (result : Nat) : Option Bool :=
  (accesses.filterMap (measuredInto? result)).getLast?.or
    (accesses.filterMap (readOf? result)).head?

/-- Whether an access takes an outcome from the stream after some earlier accesses. -/
def takes (earlier : List Access) : Access → Bool
  | measured _ => true
  | read result _ => (held earlier result).isNone
  | recorded .. => false

/-- The outcomes that accesses take from the stream after some earlier ones. -/
def takings (earlier : List Access) : List Access → List Bool
  | [] => []
  | access :: later =>
    (if access.takes earlier then [access.value] else []) ++ takings (earlier ++ [access]) later

/-- An access that takes no outcome finds the one that its result holds. Of a result that holds
none, false is recorded. -/
def Agrees (earlier : List Access) : Access → Prop
  | measured _ => True
  | read result value => ∀ outcome, held earlier result = some outcome → value = outcome
  | recorded result value => value = (held earlier result).getD false

/-- How the outcome behind an argument is accessed: a result that has its outcome already needs no
access. -/
inductive Finds (access : Nat → Bool → Access) : Datum → Bool → List Access → Prop
  | carried {value : Bool} : Finds access (.pointer (.outcome value)) value []
  | indexed {result : Nat} {value : Bool} :
      Finds access (.pointer (.index result)) value [access result value]

end Access

/-- Whether a function of the catalog has to do with outcomes. -/
def Intrinsic.accessesOutcomes : Intrinsic → Bool
  | measure | measureInto | measureReset | readResult | resultEqual | record .result => true
  | _ => false

/-- What an operation measures: its qubit, and the result that it measures into. -/
def Operation.measures? : Operation → Option (Nat × Option Nat)
  | measure qubit => some (qubit, none)
  | measureInto qubit result | measureReset qubit result => some (qubit, some result)
  | _ => none

/-- The accesses that a call of the catalog makes, as far as arguments and effect show them. -/
inductive CatalogCall.Shows : CatalogCall → List Access → Prop
  | measure {qubit : Nat} {value : Bool} {before after : RunState} :
      after.measurements = before.measurements.push ⟨qubit, none, value⟩ →
      Shows ⟨.measure, [.pointer (.index qubit)], before,
        ⟨some (.measure qubit), some (.outcome value)⟩, after⟩ [.measured ⟨qubit, none, value⟩]
  | measureInto {operation : Operation} {qubit result : Nat} {value : Bool}
      {before after : RunState} :
      operation = .measureInto qubit result ∨ operation = .measureReset qubit result →
      after.measurements = before.measurements.push ⟨qubit, some result, value⟩ →
      Shows ⟨operation.callee, [.pointer (.index qubit), .pointer (.index result)], before,
        .ofOperation operation, after⟩ [.measured ⟨qubit, some result, value⟩]
  | readResult {datum : Datum} {value : Bool} {reads : List Access} {before after : RunState} :
      Access.Finds .read datum value reads →
      Shows ⟨.readResult, [datum], before, .ofValue (.bool value), after⟩ reads
  | resultEqual {first second : Datum} {value value' : Bool} {reads reads' : List Access}
      {before after : RunState} :
      Access.Finds .read first value reads → Access.Finds .read second value' reads' →
      Shows ⟨.resultEqual, [first, second], before, .ofValue (.bool (value == value')), after⟩
        (reads ++ reads')
  | record {datum labelDatum : Datum} {value : Bool} {label : Option String}
      {records : List Access} {before after : RunState} :
      Access.Finds .recorded datum value records →
      after.output = before.output.push ⟨.result value, label⟩ →
      Shows ⟨.record .result, [datum, labelDatum], before, .none, after⟩ records
  | other {call : CatalogCall} : call.intrinsic.accessesOutcomes = false → Shows call []

/-- The accesses of a run account for the stream, for the results and for the measurements. -/
structure Accounts (stream : List Bool) (accesses : List Access) (operations : List Operation)
    (metadata : RunMetadata) : Prop where
  consumed : metadata.consumed ≤ stream.length
  taken : Access.takings [] accesses = stream.take metadata.consumed
  agrees : ∀ earlier access later, accesses = earlier ++ access :: later → access.Agrees earlier
  measured : metadata.measurements = accesses.filterMap Access.measurement?
  dispatched : operations.filterMap Operation.measures? =
    metadata.measurements.map fun measurement => (measurement.qubit, measurement.result)

namespace Access

theorem held_measured (accesses : List Access) (measurement : Measurement) (result : Nat) :
    held (accesses ++ [measured measurement]) result =
      if measurement.result = some result then some measurement.value
      else held accesses result := by
  by_cases h : measurement.result = some result
  · simp [held, measuredInto?, h]
  · simp [held, measuredInto?, readOf?, h]

theorem held_read (accesses : List Access) (found : Nat) (value : Bool) (result : Nat) :
    held (accesses ++ [read found value]) result =
      (held accesses result).or (if found = result then some value else none) := by
  by_cases h : found = result
  · simp [held, measuredInto?, readOf?, h, List.head?_append]
  · simp [held, measuredInto?, readOf?, h]

theorem held_recorded (accesses : List Access) (found : Nat) (value : Bool) (result : Nat) :
    held (accesses ++ [recorded found value]) result = held accesses result := by
  simp [held, measuredInto?, readOf?]

theorem takings_snoc (earlier accesses : List Access) (access : Access) :
    takings earlier (accesses ++ [access]) =
      takings earlier accesses ++
        if access.takes (earlier ++ accesses) then [access.value] else [] := by
  induction accesses generalizing earlier with
  | nil => simp [takings]
  | cons first rest ih => simp [takings, ih]

theorem agrees_snoc {accesses : List Access} {access : Access}
    (h : ∀ earlier a later, accesses = earlier ++ a :: later → a.Agrees earlier)
    (haccess : access.Agrees accesses) (earlier : List Access) (a : Access) (later : List Access)
    (heq : accesses ++ [access] = earlier ++ a :: later) : a.Agrees earlier := by
  rcases List.eq_nil_or_concat later with rfl | ⟨init, last, rfl⟩
  · obtain ⟨rfl, hlast⟩ := List.append_inj' heq rfl
    cases hlast
    exact haccess
  · have hinit : accesses ++ [access] = (earlier ++ a :: init) ++ [last] := by simpa using heq
    exact h earlier a init (List.append_inj' hinit rfl).1

end Access

open Access

/-- The accesses so far account for the state of a run: for what is left of the stream, for what
results hold, and for what was measured. -/
structure Tallies (stream : List Bool) (accesses : List Access) (state : RunState) : Prop where
  left : state.stream = some (stream.drop state.consumed)
  consumed : state.consumed ≤ stream.length
  taken : takings [] accesses = stream.take state.consumed
  results : ∀ result, state.results.get? result = held accesses result
  agrees : ∀ earlier access later, accesses = earlier ++ access :: later → access.Agrees earlier
  measured : state.measurements.toList = accesses.filterMap measurement?

namespace Tallies

variable {stream : List Bool} {accesses : List Access} {state taken after : RunState} {value : Bool}

theorem start (entry : Function) (stream : List Bool) :
    Tallies stream [] (.start entry (some stream)) where
  left := rfl
  consumed := Nat.zero_le _
  taken := rfl
  results := fun _ => rfl
  agrees := by simp
  measured := rfl

/-- What a state keeps beside outcomes does not matter. -/
theorem congr (h : Tallies stream accesses state) (hstream : after.stream = state.stream)
    (hconsumed : after.consumed = state.consumed) (hresults : after.results = state.results)
    (hmeasurements : after.measurements = state.measurements) : Tallies stream accesses after where
  left := by rw [hstream, hconsumed, h.left]
  consumed := by rw [hconsumed]; exact h.consumed
  taken := by rw [hconsumed]; exact h.taken
  results := by rw [hresults]; exact h.results
  agrees := h.agrees
  measured := by rw [hmeasurements]; exact h.measured

theorem useResult (h : Tallies stream accesses state) (index : Nat) :
    Tallies stream accesses (state.useResult index) :=
  h.congr rfl rfl rfl rfl

/-- The outcome that is taken is the next one of the stream. -/
theorem takes (h : Tallies stream accesses state) (htakes : state.Takes value taken) :
    state.consumed < stream.length ∧
      stream.take (state.consumed + 1) = stream.take state.consumed ++ [value] ∧
      taken = { state with
        stream := some (stream.drop (state.consumed + 1)), consumed := state.consumed + 1 } := by
  cases htakes with
  | absent hnone =>
    rw [h.left] at hnone
    cases hnone
  | @next _ rest hnext =>
    have hdrop : stream.drop state.consumed = value :: rest :=
      Option.some.inj (h.left.symm.trans hnext)
    have hlt : state.consumed < stream.length := by
      have hlength := congrArg List.length hdrop
      simp only [List.length_drop, List.length_cons] at hlength
      omega
    obtain ⟨hvalue, hrest⟩ := List.cons.inj ((List.drop_eq_getElem_cons hlt).symm.trans hdrop)
    refine ⟨hlt, ?_, by rw [hrest]⟩
    rw [List.take_succ_eq_append_getElem hlt, hvalue]

/-- One more access is accounted for. -/
theorem snoc {access : Access} (h : Tallies stream accesses state)
    (hleft : after.stream = some (stream.drop after.consumed))
    (hconsumed : after.consumed ≤ stream.length)
    (htaken : stream.take after.consumed =
      stream.take state.consumed ++ if access.takes accesses then [access.value] else [])
    (hresults : ∀ result, after.results.get? result = held (accesses ++ [access]) result)
    (hagrees : access.Agrees accesses)
    (hmeasured : after.measurements.toList =
      state.measurements.toList ++ access.measurement?.toList) :
    Tallies stream (accesses ++ [access]) after where
  left := hleft
  consumed := hconsumed
  taken := by rw [takings_snoc, h.taken, htaken, List.nil_append]
  results := hresults
  agrees := agrees_snoc h.agrees hagrees
  measured := by
    rw [hmeasured, h.measured, List.filterMap_append]
    cases access <;> rfl

/-- A measurement takes the next outcome, and its result holds it from then on. -/
theorem measure (h : Tallies stream accesses state) (htakes : state.Takes value taken)
    (qubit : Nat) (target : Option Nat) {results : Bindings Nat Bool}
    (hresults : ∀ result, results.get? result =
      if target = some result then some value else state.results.get? result) :
    Tallies stream (accesses ++ [.measured ⟨qubit, target, value⟩])
      { taken with
        measurements := taken.measurements.push ⟨qubit, target, value⟩
        results } := by
  obtain ⟨hlt, htake, rfl⟩ := h.takes htakes
  refine h.snoc rfl hlt htake ?_ trivial Array.toList_push
  intro result
  rw [held_measured, ← h.results, ← hresults]

/-- A read finds what its result holds, or else takes the next outcome. -/
theorem reads {datum : Datum} (h : Tallies stream accesses state)
    (hreads : state.Reads datum value after) : ∃ reads, Finds .read datum value reads ∧
      Tallies stream (accesses ++ reads) after ∧ reads.filterMap measurement? = [] := by
  cases hreads with
  | carried => exact ⟨[], .carried, by rwa [List.append_nil], rfl⟩
  | @held index _ hheld =>
    have hfound : held accesses index = some value := (h.results index).symm.trans hheld
    refine ⟨[.read index value], .indexed, ?_, rfl⟩
    refine (h.useResult index).snoc h.left h.consumed ?_ ?_ ?_ (List.append_nil _).symm
    · rw [Access.takes, hfound]
      exact (List.append_nil _).symm
    · intro result
      rw [held_read, ← h.results result]
      split
      · next heq =>
        subst heq
        exact hheld.trans (by rw [hheld]; rfl)
      · exact Option.or_none.symm
    · exact fun outcome houtcome => Option.some.inj (hfound.symm.trans houtcome)
  | @fresh taken index _ hnone htakes =>
    have hfound : held accesses index = none := (h.results index).symm.trans hnone
    obtain ⟨hlt, htake, rfl⟩ := (h.useResult index).takes htakes
    refine ⟨[.read index value], .indexed, ?_, rfl⟩
    refine (h.useResult index).snoc rfl hlt ?_ ?_ ?_ (List.append_nil _).symm
    · rw [Access.takes, hfound]
      exact htake
    · intro result
      rw [held_read, ← h.results result, Bindings.get?_set]
      split
      · next heq =>
        subst heq
        rw [hnone]
        rfl
      · exact Option.or_none.symm
    · intro outcome houtcome
      cases hfound.symm.trans houtcome

/-- A record finds what its result holds, and takes nothing. -/
theorem records {datum : Datum} {found : OutputValue} (h : Tallies stream accesses state)
    (hrecords : state.Records .result datum found after) : ∃ value records,
      found = .result value ∧ after.output = state.output ∧ Finds .recorded datum value records ∧
      Tallies stream (accesses ++ records) after ∧ records.filterMap measurement? = [] := by
  cases hrecords with
  | @carried _ value => exact ⟨value, [], rfl, rfl, .carried, by rwa [List.append_nil], rfl⟩
  | @held _ index =>
    refine ⟨_, [.recorded index _], rfl, rfl, .indexed, ?_, rfl⟩
    refine (h.useResult index).snoc h.left h.consumed (List.append_nil _).symm ?_ ?_
      (List.append_nil _).symm
    · intro result
      rw [held_recorded, ← h.results result]
      rfl
    · rw [Agrees, h.results]

/-- What else is recorded has nothing to do with outcomes. -/
theorem recordsOther {kind : RecordKind} {datum : Datum} {found : OutputValue}
    (h : Tallies stream accesses state) (hrecords : state.Records kind datum found after)
    (hkind : kind ≠ .result) : Tallies stream accesses after := by
  cases hrecords with
  | carried | held => exact absurd rfl hkind
  | bool | int | double | array | tuple => exact h

/-- What the accesses of a call add, they add as the state is changed; what it measures, it
measures by the operation that it hands on. -/
theorem performs {module : Module} {intrinsic : Intrinsic} {args : List Datum} {effect : Effect}
    (h : Tallies stream accesses state)
    (hperforms : Run.Performs module intrinsic args state effect after) :
    ∃ added, CatalogCall.Shows ⟨intrinsic, args, state, effect, after⟩ added ∧
      Tallies stream (accesses ++ added) after ∧
      effect.operation.toList.filterMap Operation.measures? =
        (added.filterMap measurement?).map fun measurement =>
          (measurement.qubit, measurement.result) := by
  cases hperforms with
  | operation operation hmeasurement =>
    obtain ⟨qubitCount, hstate⟩ := RunState.exists_foldl_useQubit operation.qubits state
    refine ⟨[], .other ?_, ?_, ?_⟩
    · cases operation <;> first | rfl | cases hmeasurement
    · rw [List.append_nil, hstate]
      exact h.congr rfl rfl rfl rfl
    · cases operation <;> first | rfl | cases hmeasurement
  | @measure _ taken qubit value htakes =>
    have hused : Tallies stream accesses (state.useQubit qubit) := h.congr rfl rfl rfl rfl
    have hmeasured := hused.measure htakes qubit none (fun _ => rfl)
    obtain ⟨-, -, rfl⟩ := hused.takes htakes
    exact ⟨_, .measure rfl, hmeasured, rfl⟩
  | @measureInto operation _ taken qubit result value hoperation htakes =>
    have hused : Tallies stream accesses ((state.useQubit qubit).useResult result) :=
      h.congr rfl rfl rfl rfl
    obtain ⟨-, -, htaken⟩ := hused.takes htakes
    have hresults : ∀ other, (taken.results.set result value).get? other =
        if some result = some other then some value else state.results.get? other := by
      intro other
      simp only [htaken, Bindings.get?_set, Option.some.injEq]
      rfl
    have hmeasured := hused.measure htakes qubit (some result) hresults
    rw [htaken] at hmeasured ⊢
    refine ⟨[.measured ⟨qubit, some result, value⟩], ?_, hmeasured, ?_⟩
    · rcases hoperation with rfl | rfl
      · exact .measureInto (Or.inl rfl) rfl
      · exact .measureInto (Or.inr rfl) rfl
    · rcases hoperation with rfl | rfl <;> rfl
  | readResult hreads =>
    obtain ⟨reads, hfinds, htallies, hnone⟩ := h.reads hreads
    exact ⟨reads, .readResult hfinds, htallies, by rw [hnone]; rfl⟩
  | resultEqual hfirst hsecond =>
    obtain ⟨reads, hfinds, htallies, hnone⟩ := h.reads hfirst
    obtain ⟨reads', hfinds', htallies', hnone'⟩ := htallies.reads hsecond
    refine ⟨reads ++ reads', .resultEqual hfinds hfinds', ?_, ?_⟩
    · rwa [← List.append_assoc]
    · rw [List.filterMap_append, hnone, hnone']
      rfl
  | @record kind _ _ _ _ _ _ hrecords _ =>
    by_cases hkind : kind = .result
    · subst hkind
      obtain ⟨value, records, rfl, houtput, hfinds, htallies, hnone⟩ := h.records hrecords
      exact ⟨records, .record hfinds (congrArg (Array.push · _) houtput),
        htallies.congr rfl rfl rfl rfl, by rw [hnone]; rfl⟩
    · refine ⟨[], .other ?_, ?_, rfl⟩
      · cases kind <;> first | rfl | exact absurd rfl hkind
      · rw [List.append_nil]
        exact (h.recordsOther hrecords hkind).congr rfl rfl rfl rfl
  | resultOf => exact ⟨[], .other rfl, by rwa [List.append_nil], rfl⟩
  | setUp => exact ⟨[], .other rfl, by rwa [List.append_nil], rfl⟩
  | release => exact ⟨[], .other rfl, by rwa [List.append_nil], rfl⟩
  | allocate _ =>
    refine ⟨[], .other rfl, ?_, rfl⟩
    rw [List.append_nil]
    exact h.congr rfl rfl rfl rfl

/-- The accesses account for what is known of a run. -/
theorem accounts {operations : List Operation} (h : Tallies stream accesses state)
    (hoperations : operations.filterMap Operation.measures? =
      (accesses.filterMap measurement?).map fun measurement =>
        (measurement.qubit, measurement.result)) :
    Accounts stream accesses operations state.metadata where
  consumed := h.consumed
  taken := h.taken
  agrees := h.agrees
  measured := h.measured
  dispatched := hoperations.trans (congrArg _ h.measured.symm)

end Tallies

namespace Machine

variable {module : Module} {limits : Limits} {start machine : Machine} {stream : List Bool}
  {history : List CatalogCall}

/-- What the calls of a run access accounts for its state. -/
theorem Runs.exists_tallies (h : Runs module limits start history machine)
    (hstart : Tallies stream [] start.state) :
    ∃ accesses, List.Forall₂ CatalogCall.Shows history accesses ∧
      Tallies stream accesses.flatten machine.state ∧
      (operationsOf history).filterMap Operation.measures? =
        (accesses.flatten.filterMap measurement?).map fun measurement =>
          (measurement.qubit, measurement.result) := by
  induction h with
  | refl => exact ⟨[], .nil, hstart, rfl⟩
  | @step history machine next call _ hsteps ih =>
    obtain ⟨accesses, hshows, htallies, hoperations⟩ := ih
    have hticked : Tallies stream accesses.flatten
        { machine.state with steps := machine.state.steps + 1 } := htallies.congr rfl rfl rfl rfl
    rcases hsteps.state_cases with ⟨rfl, hnext⟩ | ⟨made, rfl, hbefore, hperforms, hnext⟩
    · rw [hnext, Option.toList_none, List.append_nil]
      exact ⟨accesses, hshows, hticked, hoperations⟩
    · rw [← hbefore] at hticked
      obtain ⟨added, hadded, htallies', hmeasures⟩ := hticked.performs hperforms
      refine ⟨accesses ++ [added], List.rel_append hshows (.cons hadded .nil), ?_, ?_⟩
      · rwa [hnext, List.flatten_concat]
      · rw [operationsOf_append, operationsOf_toList, List.filterMap_append, hoperations,
          List.flatten_concat, List.filterMap_append, List.map_append]
        exact congrArg _ hmeasures

/-- Every outcome of the stream is accounted for. However far a run has come, its calls have taken
the first outcomes of the stream in their order: measurements one each, and reads of results that
held none. Every other read has found the outcome of the most recent measurement into its result
or of the first read, and every record has found that or false. The measurements that are noted
down are those whose operations the run has handed on. -/
theorem exists_accounts {entryPoint : Option String}
    (hprepare : module.prepare entryPoint (some stream) = .ok start)
    (hruns : Runs module limits start history machine) :
    ∃ accesses, List.Forall₂ CatalogCall.Shows history accesses ∧
      Accounts stream accesses.flatten (operationsOf history) machine.state.metadata := by
  obtain ⟨entry, -, rfl⟩ := Module.exists_start_of_prepare hprepare
  obtain ⟨accesses, hshows, htallies, hoperations⟩ := hruns.exists_tallies (.start entry stream)
  exact ⟨accesses, hshows, htallies.accounts hoperations⟩

end Machine

namespace Module

/-- What a finished run reports is accounted for: the outcomes that it has consumed, and its
measurements, one for each operation that measures. -/
theorem exists_accounts_of_evaluate? {module : Module} {limits : Limits}
    {entryPoint : Option String} {stream : List Bool} {metadata : RunMetadata}
    {operations : Array Operation}
    (h : module.evaluate? limits .trace entryPoint (some stream) #[] =
      some (.ok metadata, operations)) :
    ∃ accesses, Accounts stream accesses operations.toList metadata := by
  rcases evaluate?_cases h with ⟨error, -, herror⟩ |
    ⟨start, dispatched, last, hprepare, hreaches, hlast, hfinal⟩
  · cases herror
  · obtain ⟨entry, -, rfl⟩ := exists_start_of_prepare hprepare
    obtain ⟨history, hruns, rfl⟩ := Machine.reaches_iff_runs.mp hreaches
    obtain ⟨accesses, -, htallies, hoperations⟩ := hruns.exists_tallies (.start entry stream)
    have htrace : operations.toList = Machine.operationsOf history := by
      rw [hfinal]
      exact Observer.toList_watch_trace _ #[]
    refine ⟨accesses.flatten, ?_⟩
    rw [htrace, ← Machine.metadata_of_outcome? hlast]
    exact htallies.accounts hoperations

/-- Measures a result and reads it, reads one that nothing was measured into, and records that one
and a third. -/
def readingMain : Function where
  name := "main"
  ret := .void
  params := []
  attributes := [.flag "entry_point", .keyValue "required_num_qubits" "1",
    .keyValue "required_num_results" "3"]
  blocks := [⟨"entry", [
    .call none .void "__quantum__qis__mz__body" [.qubit 0, .result 0],
    .call (some "a") .bool "__quantum__qis__read_result__body" [.result 0],
    .call (some "b") .bool "__quantum__qis__read_result__body" [.result 1],
    .call none .void "__quantum__rt__result_record_output" [.result 1, ⟨.label, .null⟩],
    .call none .void "__quantum__rt__result_record_output" [.result 2, ⟨.label, .null⟩],
    .ret none]⟩]

def reading : Module where
  name := "reading"
  source := none
  opaqueTypes := ["Qubit", "Result"]
  globals := []
  functions := [readingMain,
    Function.declaration "__quantum__qis__mz__body" [.qubit, .result] .void,
    Function.declaration "__quantum__qis__read_result__body" [.result] .bool,
    Function.declaration "__quantum__rt__result_record_output" [.result, .label] .void]

theorem accounts_reading : ∃ start history machine accesses,
    reading.prepare none (some [true, false, true]) = .ok start ∧
    Machine.Runs reading .standard start history machine ∧ machine.frames = [] ∧
    machine.state.consumed = 2 ∧ Machine.operationsOf history = [.measureInto 0 0] ∧
    List.Forall₂ CatalogCall.Shows history accesses ∧
    Accounts [true, false, true] accesses.flatten (Machine.operationsOf history)
      machine.state.metadata := by
  have hprepare : reading.prepare none (some [true, false, true]) =
      .ok (.start readingMain (some [true, false, true])) :=
    prepare_of_verify rfl rfl (by decide) _
  have hreaches : ∃ operations machine, Machine.Reaches reading .standard
      (.start readingMain (some [true, false, true])) operations machine ∧
      machine.frames = [] ∧ machine.state.consumed = 2 ∧ operations = [.measureInto 0 0] :=
    ⟨_, _, .step rfl (.step rfl (.step rfl (.step rfl (.step rfl (.step rfl (.refl _)))))),
      rfl, rfl, rfl⟩
  obtain ⟨operations, machine, hreaches, hframes, hconsumed, hoperations⟩ := hreaches
  obtain ⟨history, hruns, rfl⟩ := Machine.reaches_iff_runs.mp hreaches
  obtain ⟨accesses, hshows, haccounts⟩ := Machine.exists_accounts hprepare hruns
  exact ⟨_, history, machine, accesses, hprepare, hruns, hframes, hconsumed, hoperations,
    hshows, haccounts⟩

end Module

end QuantumIR
