import QuantumIR.Proofs.Execution.Allocation
import QuantumIR.Proofs.Execution.Stops

/-!
How many qubits and results a run says it has used. A constant index has less than 64 bits and an
allocated one was checked, so there is no index in a register that a count has no room for. A count
is then one more than the largest index in use, unless more were declared or allocated.
-/

namespace QuantumIR

open Verification

/-- An index that is not too large to be counted, if a datum is an index at all. -/
def Datum.Countable (datum : Datum) : Prop :=
  datum.PointsIn fun index => index < Run.maxCount

/-- The index that a pointer holds. -/
def Datum.index? : Datum → Option Nat
  | pointer (.index index) => some index
  | _ => none

/-- The results that a function of the catalog measures into, reads or records. A result that comes
with its outcome has no index. -/
def Intrinsic.results : Intrinsic → List Datum → List Nat
  | measureInto, [_, datum] | measureReset, [_, datum] | readResult, [datum]
  | record .result, [datum, _] => datum.index?.toList
  | resultEqual, [first, second] => first.index?.toList ++ second.index?.toList
  | _, _ => []

/-- The results that a call uses. -/
def CatalogCall.results (call : CatalogCall) : List Nat :=
  call.intrinsic.results call.args

/-- The number of qubits that calls allocate. -/
def Machine.allocationsOf (history : List CatalogCall) : Nat :=
  history.countP fun call => call.intrinsic = .qubitAllocate

namespace Run

/-- A count that covers some indices as well. -/
def cover (count : Nat) (indices : List Nat) : Nat :=
  indices.foldl (fun count index => max count (index + 1)) count

theorem cover_cons (count index : Nat) (rest : List Nat) :
    cover count (index :: rest) = cover (max count (index + 1)) rest :=
  rfl

theorem cover_append (count : Nat) (first second : List Nat) :
    cover count (first ++ second) = cover (cover count first) second :=
  List.foldl_append

theorem cover_max (count other : Nat) (indices : List Nat) :
    cover (max count other) indices = max (cover count indices) other := by
  induction indices generalizing count with
  | nil => rfl
  | cons index rest ih => rw [cover_cons, cover_cons, max_right_comm, ih]

/-- The count that covers some indices is the largest of those that it has to cover. -/
theorem isGreatest_cover (count : Nat) (indices : List Nat) :
    IsGreatest {size | size = count ∨ ∃ index ∈ indices, size = index + 1}
      (cover count indices) := by
  induction indices generalizing count with
  | nil => simp [cover, IsGreatest]
  | cons index rest ih =>
    obtain ⟨hmem, hgreatest⟩ := ih (max count (index + 1))
    have hfirst : max count (index + 1) ≤ cover count (index :: rest) := hgreatest (Or.inl rfl)
    constructor
    · rcases hmem with heq | ⟨other, hother, heq⟩
      · rcases max_choice count (index + 1) with hchoice | hchoice
        · exact Or.inl (heq.trans hchoice)
        · exact Or.inr ⟨index, List.mem_cons_self, heq.trans hchoice⟩
      · exact Or.inr ⟨other, List.mem_cons_of_mem index hother, heq⟩
    · rintro size (rfl | ⟨other, hother, rfl⟩)
      · omega
      · rcases List.mem_cons.mp hother with rfl | hrest
        · omega
        · exact hgreatest (Or.inr ⟨other, hrest, rfl⟩)

theorem isGreatest_cover_flatMap {α : Type} (count : Nat) (items : List α)
    (indices : α → List Nat) :
    IsGreatest {size | size = count ∨ ∃ item ∈ items, ∃ index ∈ indices item, size = index + 1}
      (cover count (items.flatMap indices)) := by
  obtain ⟨hmem, hgreatest⟩ := isGreatest_cover count (items.flatMap indices)
  constructor
  · rcases hmem with heq | ⟨index, hindex, heq⟩
    · exact Or.inl heq
    · obtain ⟨item, hitem, hindex⟩ := List.mem_flatMap.mp hindex
      exact Or.inr ⟨item, hitem, index, hindex, heq⟩
  · rintro size (rfl | ⟨item, hitem, index, hindex, rfl⟩)
    · exact hgreatest (Or.inl rfl)
    · exact hgreatest (Or.inr ⟨index, List.mem_flatMap.mpr ⟨item, hitem, hindex⟩, rfl⟩)

/-- So it is with further ones, which are numbered from the count on. -/
theorem isGreatest_max_cover {α : Type} (count more : Nat) (items : List α)
    (indices : α → List Nat) :
    IsGreatest {size | size = count ∨
        (∃ item ∈ items, ∃ index ∈ indices item, size = index + 1) ∨
        0 < more ∧ size = count + more}
      (max (cover count (items.flatMap indices)) (count + more)) := by
  obtain ⟨hmem, hgreatest⟩ := isGreatest_cover_flatMap count items indices
  constructor
  · rcases max_choice (cover count (items.flatMap indices)) (count + more) with hmax | hmax
    · rw [hmax]
      exact hmem.imp_right Or.inl
    · rw [hmax]
      rcases Nat.eq_zero_or_pos more with rfl | hpos
      · exact Or.inl rfl
      · exact Or.inr (Or.inr ⟨hpos, rfl⟩)
  · rintro size (hcount | hindex | ⟨-, rfl⟩)
    · exact (hgreatest (Or.inl hcount)).trans (le_max_left _ _)
    · exact (hgreatest (Or.inr hindex)).trans (le_max_left _ _)
    · exact le_max_right _ _

/-- A count has room for an index that is not too large. -/
theorem countWith_eq {count index : Nat} (h : index < maxCount) :
    countWith count index = cover count [index] := by
  have hroom : min (index + 1) maxCount = index + 1 := min_eq_left h
  rw [countWith, hroom]
  rfl

end Run

namespace RunState

variable {state after : RunState}

theorem foldl_useQubit_qubitCount {qubits : List Nat} (h : ∀ qubit ∈ qubits, qubit < Run.maxCount)
    (state : RunState) :
    (qubits.foldl useQubit state).qubitCount = Run.cover state.qubitCount qubits := by
  induction qubits generalizing state with
  | nil => rfl
  | cons qubit rest ih =>
    obtain ⟨hqubit, hrest⟩ := List.forall_mem_cons.mp h
    have hused : (state.useQubit qubit).qubitCount = Run.cover state.qubitCount [qubit] :=
      Run.countWith_eq hqubit
    rw [List.foldl_cons, ih hrest, hused]
    rfl

theorem Takes.counts {value : Bool} (h : Takes state value after) :
    after.qubitCount = state.qubitCount ∧ after.resultCount = state.resultCount := by
  cases h <;> exact ⟨rfl, rfl⟩

theorem Reads.counts {datum : Datum} {value : Bool} (h : Reads state datum value after)
    (hdatum : datum.Countable) : after.qubitCount = state.qubitCount ∧
      after.resultCount = Run.cover state.resultCount datum.index?.toList := by
  cases h with
  | carried => exact ⟨rfl, rfl⟩
  | @held index => exact ⟨rfl, Run.countWith_eq (hdatum index rfl)⟩
  | @fresh _ index _ _ htakes =>
    obtain ⟨hqubits, hresults⟩ := htakes.counts
    exact ⟨hqubits, hresults.trans (Run.countWith_eq (hdatum index rfl))⟩

theorem Records.counts {kind : RecordKind} {datum : Datum} {value : OutputValue}
    (h : Records kind state datum value after) (hdatum : datum.Countable) (labelDatum : Datum) :
    after.qubitCount = state.qubitCount ∧ after.resultCount =
      Run.cover state.resultCount ((Intrinsic.record kind).results [datum, labelDatum]) := by
  cases h with
  | @held _ index => exact ⟨rfl, Run.countWith_eq (hdatum index rfl)⟩
  | carried | bool | int | double | array | tuple => exact ⟨rfl, rfl⟩

end RunState

namespace Run

variable {module : Module} {intrinsic : Intrinsic} {args : List Datum} {state after : RunState}
  {effect : Effect}

/-- The results that a function uses are counted. -/
theorem Performs.resultCount_eq (h : Performs module intrinsic args state effect after)
    (hargs : ∀ arg ∈ args, arg.Countable) :
    after.resultCount = cover state.resultCount (intrinsic.results args) := by
  cases h with
  | operation operation hkind =>
    obtain ⟨qubitCount, hstate⟩ := RunState.exists_foldl_useQubit operation.qubits state
    have hresults : operation.callee.results operation.data = [] := by
      cases operation with
      | measure | measureInto | measureReset => cases hkind
      | _ => rfl
    rw [hstate, hresults]
    rfl
  | measure htakes => exact htakes.counts.2
  | @measureInto operation _ _ qubit result _ hoperation htakes =>
    obtain ⟨-, htaken⟩ := htakes.counts
    rcases hoperation with rfl | rfl
    all_goals
      have hresult : result < maxCount := hargs _ (by simp [Operation.data]) result rfl
      exact htaken.trans (countWith_eq hresult)
  | @readResult _ _ datum _ hreads => exact (hreads.counts (hargs datum (by simp))).2
  | @resultEqual _ _ _ first second _ _ hfirst hsecond =>
    obtain ⟨-, hmiddle⟩ := hfirst.counts (hargs first (by simp))
    obtain ⟨-, hafter⟩ := hsecond.counts (hargs second (by simp))
    rw [hafter, hmiddle, ← cover_append]
    rfl
  | @record _ _ _ datum labelDatum _ _ hrecords _ =>
    exact (hrecords.counts (hargs datum (by simp)) labelDatum).2
  | resultOf | setUp | allocate | release => rfl

/-- An allocation counts the next qubit; nothing else moves the next one on, and what becomes an
operation counts the qubits of the operation. -/
theorem Performs.qubitCount_cases (h : Performs module intrinsic args state effect after)
    (hargs : ∀ arg ∈ args, arg.Countable) :
    intrinsic ≠ .qubitAllocate ∧ after.nextQubit = state.nextQubit ∧
        after.qubitCount =
          cover state.qubitCount (effect.operation.toList.flatMap Operation.qubits) ∨
      intrinsic = .qubitAllocate ∧ effect.operation = none ∧
        after.nextQubit = state.nextQubit + 1 ∧
        after.qubitCount = max state.qubitCount (state.nextQubit + 1) := by
  have hqubits : ∀ operation, effect.operation = some operation →
      ∀ qubit ∈ operation.qubits, qubit < maxCount := by
    intro operation hoperation qubit hqubit
    obtain ⟨-, rfl⟩ := h.eq_data hoperation
    obtain ⟨place, hplace, -⟩ := operation.exists_place_of_mem_qubits hqubit
    exact hargs _ (List.mem_of_getElem? hplace) qubit rfl
  cases h with
  | allocate => exact Or.inr ⟨rfl, rfl, rfl, rfl⟩
  | operation operation hkind =>
    obtain ⟨qubitCount, hstate⟩ := RunState.exists_foldl_useQubit operation.qubits state
    have hcount := RunState.foldl_useQubit_qubitCount (hqubits operation rfl) state
    refine Or.inl ⟨?_, by rw [hstate], ?_⟩
    · cases operation <;> simp [Operation.callee]
    · simpa [Effect.ofOperation] using hcount
  | @measure _ _ qubit _ htakes =>
    have hqubit : qubit < maxCount := hqubits _ rfl qubit (by simp [Operation.qubits])
    exact Or.inl ⟨by simp, htakes.nextQubit, htakes.counts.1.trans (countWith_eq hqubit)⟩
  | @measureInto operation _ _ qubit result _ hoperation htakes =>
    rcases hoperation with rfl | rfl
    all_goals
      have hqubit : qubit < maxCount := hqubits _ rfl qubit (by simp [Operation.qubits])
      exact Or.inl ⟨by simp [Operation.callee], htakes.nextQubit,
        htakes.counts.1.trans (countWith_eq hqubit)⟩
  | @readResult _ _ datum _ hreads =>
    exact Or.inl ⟨by simp, hreads.nextQubit, (hreads.counts (hargs datum (by simp))).1⟩
  | @resultEqual _ _ _ first second _ _ hfirst hsecond =>
    obtain ⟨hmiddle, -⟩ := hfirst.counts (hargs first (by simp))
    obtain ⟨hafter, -⟩ := hsecond.counts (hargs second (by simp))
    exact Or.inl ⟨by simp, hsecond.nextQubit.trans hfirst.nextQubit, hafter.trans hmiddle⟩
  | @record _ _ _ datum labelDatum _ _ hrecords _ =>
    obtain ⟨hqubitCount, -⟩ := hrecords.counts (hargs datum (by simp)) labelDatum
    exact Or.inl ⟨by simp, hrecords.nextQubit, hqubitCount⟩
  | resultOf | setUp | release => exact Or.inl ⟨by simp, rfl, rfl⟩

/-- An allocated qubit can be counted. -/
theorem Performs.countable_value (h : Performs module intrinsic args state effect after)
    {datum : Datum} (hvalue : effect.value = some datum) : datum.Countable := by
  rintro index rfl
  cases h with
  | allocate hlt =>
    cases hvalue
    exact hlt
  | operation | measure | measureInto | readResult | resultEqual | record | resultOf | setUp
  | release => cases hvalue

end Run

/-- A constant index has less than 64 bits. -/
theorem Value.index?_lt {value : Value} {index : Nat} (h : value.index? = some index) :
    index < Run.maxCount := by
  cases value with
  | null =>
    cases h
    decide
  | address n =>
    have hlt := n.toInt_lt
    rw [Value.index?] at h
    split at h
    · cases h
      simp only [Run.maxCount, UInt64.size]
      omega
    · cases h
  | _ => cases h

/-- What a value stands for can be counted if what registers hold can be. -/
theorem Frame.countable_of_datum {frame : Frame} {ty : Ty} {value : Value} {datum : Datum}
    (hframe : frame.Holds Datum.Countable) (h : frame.datum ty value = .ok datum) :
    datum.Countable := by
  rintro index rfl
  rcases Frame.index?_or_reg_of_datum h with hconstant | ⟨name, -, hregister⟩
  · exact Value.index?_lt hconstant
  · exact hframe name _ hregister index rfl

namespace Machine

variable {module : Module} {limits : Limits} {machine next : Machine} {call : Option CatalogCall}
  {history : List CatalogCall}

/-- All indices in registers can be counted, and so can those that a call passes. -/
theorem Steps.countable (h : Steps module limits machine call next)
    (hholds : machine.Holds Datum.Countable) :
    next.Holds Datum.Countable ∧ ∀ made ∈ call, ∀ arg ∈ made.args, arg.Countable := by
  cases h with
  | @execute frame callers _ ticked _ rest _ _ _ _ hexecutes =>
    obtain ⟨hframe, hcallers⟩ := List.forall_mem_cons.mp hholds
    have hread : ∀ {ty : Ty} {value : Value} {datum : Datum},
        Frame.datum { frame with rest } ty value = .ok datum → datum.Countable :=
      Frame.countable_of_datum hframe
    refine ⟨hexecutes.holds_next hframe hcallers ?_, ?_⟩
    · intro datum hbrings
      cases hbrings with
      | computed hcomputes =>
        cases hcomputes with
        | binary | compare | convert => rintro index ⟨⟩
        | select _ hdatum => exact hread hdatum
      | passed _ _ hdatum | returned hdatum => exact hread hdatum
      | given hvalue =>
        cases hexecutes with
        | perform _ _ _ hperform =>
          exact (Run.performs_of_perform hperform).countable_value hvalue
    · intro made hmade arg harg
      cases hexecutes with
      | compute | jump | enter | leave => cases hmade
      | perform hargs _ _ _ =>
        cases hmade
        obtain ⟨operand, -, hdatum⟩ := mem_of_mapM hargs harg
        exact hread hdatum

/-- What the calls so far say about the counts of a run: the next qubit comes after those declared
and allocated, and the counts cover what was declared, allocated and used. -/
structure Sized (qubits results : Nat) (history : List CatalogCall) (state : RunState) : Prop where
  nextQubit : state.nextQubit = qubits + allocationsOf history
  qubitCount : state.qubitCount =
    max (Run.cover qubits ((operationsOf history).flatMap Operation.qubits))
      (qubits + allocationsOf history)
  resultCount : state.resultCount = Run.cover results (history.flatMap CatalogCall.results)

theorem sized_start (entry : Function) (stream : Option (List Bool)) :
    Sized (entry.qubitCount?.getD 0) (entry.resultCount?.getD 0) [] (.start entry stream) where
  nextQubit := rfl
  qubitCount := (max_self _).symm
  resultCount := rfl

theorem Sized.tick {qubits results steps : Nat} (h : Sized qubits results history machine.state) :
    Sized qubits results history { machine.state with steps } :=
  ⟨h.nextQubit, h.qubitCount, h.resultCount⟩

/-- A call adds what it uses to the counts. -/
theorem Sized.perform {qubits results : Nat} {made : CatalogCall}
    (h : Sized qubits results history made.before)
    (hperforms : Run.Performs module made.intrinsic made.args made.before made.effect made.after)
    (hargs : ∀ arg ∈ made.args, arg.Countable) :
    Sized qubits results (history ++ [made]) made.after := by
  have hresults : made.after.resultCount =
      Run.cover results ((history ++ [made]).flatMap CatalogCall.results) := by
    rw [hperforms.resultCount_eq hargs, h.resultCount, ← Run.cover_append]
    simp [CatalogCall.results]
  have hoperations : operationsOf (history ++ [made]) =
      operationsOf history ++ made.effect.operation.toList := by
    rw [operationsOf_append]
    exact congrArg (operationsOf history ++ ·) (operationsOf_toList (some made))
  rcases hperforms.qubitCount_cases hargs with ⟨hother, hnext, hcount⟩ |
    ⟨hallocates, hnone, hnext, hcount⟩
  · have hallocations : allocationsOf (history ++ [made]) = allocationsOf history := by
      simp [allocationsOf, hother]
    refine ⟨?_, ?_, hresults⟩
    · rw [hnext, h.nextQubit, hallocations]
    · rw [hcount, h.qubitCount, Run.cover_max, ← Run.cover_append, hoperations, hallocations,
        List.flatMap_append]
  · have hallocations : allocationsOf (history ++ [made]) = allocationsOf history + 1 := by
      simp [allocationsOf, hallocates]
    refine ⟨?_, ?_, hresults⟩
    · rw [hnext, h.nextQubit, hallocations, Nat.add_assoc]
    · rw [hcount, h.qubitCount, h.nextQubit, hoperations, hnone, hallocations]
      simp only [Option.toList_none, List.append_nil]
      omega

theorem Runs.sized {entry : Function} {stream : Option (List Bool)}
    (h : Runs module limits (.start entry stream) history machine) :
    machine.Holds Datum.Countable ∧
      Sized (entry.qubitCount?.getD 0) (entry.resultCount?.getD 0) history machine.state := by
  -- A count takes an index for what it is only as long as no register holds one that is too large,
  -- so both are kept along the run.
  induction h with
  | refl => exact ⟨holds_start _ entry stream, sized_start entry stream⟩
  | @step history machine next call _ hstep ih =>
    obtain ⟨hholds, hsized⟩ := ih
    obtain ⟨hnext, hargs⟩ := hstep.countable hholds
    refine ⟨hnext, ?_⟩
    rcases hstep.state_cases with ⟨rfl, hstate⟩ | ⟨made, rfl, hbefore, hperforms, hstate⟩
    · rw [hstate, Option.toList_none, List.append_nil]
      exact hsized.tick
    · rw [hstate]
      exact Sized.perform (hbefore ▸ hsized.tick) hperforms (hargs made rfl)

end Machine

namespace Module

variable {module : Module} {limits : Limits} {entryPoint : Option String}
  {stream : Option (List Bool)} {operations : List Operation} {metadata : RunMetadata}

/-- The reported sizes are exact. Of a run that succeeds, the number of qubits is the largest of
what its entry point declares, one more than each index that an operation uses, and, if qubits are
allocated, the declared number and theirs together. The number of results is the largest of what
the entry point declares and one more than each index that is measured into, read or recorded. -/
theorem Stops.sizes_exact
    (h : module.Stops limits entryPoint stream operations (.ok metadata)) :
    ∃ entry history last, module.resolveEntry entryPoint = .ok entry ∧
      module.prepare entryPoint stream = .ok (.start entry stream) ∧
      Machine.Runs module limits (.start entry stream) history last ∧
      last.outcome? module limits = some (.ok metadata) ∧
      operations = Machine.operationsOf history ∧
      IsGreatest {size | size = entry.qubitCount?.getD 0 ∨
          (∃ operation ∈ operations, ∃ index ∈ operation.qubits, size = index + 1) ∨
          0 < Machine.allocationsOf history ∧
            size = entry.qubitCount?.getD 0 + Machine.allocationsOf history}
        metadata.qubitCount ∧
      IsGreatest {size | size = entry.resultCount?.getD 0 ∨
          ∃ call ∈ history, ∃ index ∈ call.results, size = index + 1} metadata.resultCount := by
  rcases h.cases with ⟨error, -, -, herror⟩ | ⟨start, last, hprepare, hreaches, hlast⟩
  · cases herror
  obtain ⟨entry, hentry, rfl⟩ := exists_start_of_prepare hprepare
  obtain ⟨history, hruns, rfl⟩ := Machine.reaches_iff_runs.mp hreaches
  obtain ⟨-, hsized⟩ := hruns.sized
  have hmetadata := Machine.metadata_of_outcome? hlast
  refine ⟨entry, history, last, hentry, hprepare, hruns, hlast, rfl, ?qubits, ?results⟩
  case qubits =>
    rw [← hmetadata, RunState.metadata, hsized.qubitCount]
    exact Run.isGreatest_max_cover _ _ _ _
  case results =>
    rw [← hmetadata, RunState.metadata, hsized.resultCount]
    exact Run.isGreatest_cover_flatMap _ _ _

/-- Allocates a qubit after it has called a function that uses a qubit and results past those that
are declared. -/
def outlyingMain : Function where
  name := "main"
  ret := .void
  params := []
  attributes := [.flag "entry_point", .keyValue "required_num_qubits" "2",
    .keyValue "required_num_results" "1"]
  blocks := [⟨"entry", [
    .call none .void "outside" [],
    .call (some "q") .qubit "__quantum__rt__qubit_allocate" [],
    .call none .void "__quantum__qis__mz__body" [⟨.qubit, .reg "q"⟩, .result 0],
    .ret none]⟩]

def outlying : Module where
  name := "outlying"
  source := none
  opaqueTypes := ["Qubit", "Result"]
  globals := []
  functions := [outlyingMain,
    { name := "outside", ret := .void, params := [], attributes := []
      blocks := [⟨"entry", [
        .call none .void "__quantum__qis__mz__body" [.qubit 5, .result 3],
        .call (some "b") .bool "__quantum__qis__read_result__body" [.result 6], .ret none]⟩] },
    Function.declaration "__quantum__rt__qubit_allocate" [] .qubit,
    Function.declaration "__quantum__qis__mz__body" [.qubit, .result] .void,
    Function.declaration "__quantum__qis__read_result__body" [.result] .bool]

theorem sizes_outlying : ∃ operations metadata,
    outlying.Stops .standard none none operations (.ok metadata) ∧
      operations = [.measureInto 5 3, .measureInto 2 0] ∧
      metadata.qubitCount = 6 ∧ metadata.resultCount = 7 ∧
      ∃ history, operations = Machine.operationsOf history ∧ Machine.allocationsOf history ≤ 4 ∧
        ∃ call ∈ history, 6 ∈ call.results := by
  have hprepare : outlying.prepare none none = .ok (.start outlyingMain none) :=
    prepare_of_verify rfl rfl (by decide) none
  have hreaches : ∃ operations last metadata,
      Machine.Reaches outlying .standard (.start outlyingMain none) operations last ∧
      last.outcome? outlying .standard = some (.ok metadata) ∧
      operations = [.measureInto 5 3, .measureInto 2 0] ∧
      metadata.qubitCount = 6 ∧ metadata.resultCount = 7 :=
    ⟨_, _, _, .step rfl (.step rfl (.step rfl (.step rfl (.step rfl (.step rfl (.step rfl
      (.refl _))))))), rfl, rfl, rfl, rfl⟩
  obtain ⟨operations, last, metadata, hreaches, hlast, hoperations, hqubits, hresults⟩ := hreaches
  have hstops := stops_of_reaches hprepare hreaches hlast
  obtain ⟨entry, history, -, hentry, -, -, -, hhistory, ⟨-, hmost⟩, ⟨hsize, -⟩⟩ :=
    hstops.sizes_exact
  cases hentry
  have hdeclared : outlyingMain.qubitCount?.getD 0 = 2 ∧ outlyingMain.resultCount?.getD 0 = 1 :=
    ⟨rfl, rfl⟩
  refine ⟨operations, metadata, hstops, hoperations, hqubits, hresults, history, hhistory, ?_, ?_⟩
  · rcases Nat.eq_zero_or_pos (Machine.allocationsOf history) with hnone | hpos
    · omega
    · have hsum := hmost (Or.inr (Or.inr ⟨hpos, rfl⟩))
      omega
  · rcases hsize with hfew | ⟨call, hcall, index, hindex, hlargest⟩
    · omega
    · obtain rfl : index = 6 := by omega
      exact ⟨call, hcall, hindex⟩

end Module

end QuantumIR
