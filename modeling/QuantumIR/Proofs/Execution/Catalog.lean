import QuantumIR.Proofs.Execution.Registers
import QuantumIR.Proofs.Structured.Program

/-!
The rules by which functions of the catalog work. A gate uses its qubits and becomes an operation; a
measurement takes an outcome as well; reading a result takes one if the result holds none; an
allocation moves the next index on. Whatever a function does, one of these rules says it.
-/

namespace QuantumIR

open Verification

/-- The arguments with which a function of the catalog becomes an operation. -/
def Operation.data : Operation → List Datum
  | rotate _ theta qubit => [.double theta, .pointer (.index qubit)]
  | rotatePair _ theta qubit₁ qubit₂ =>
    [.double theta, .pointer (.index qubit₁), .pointer (.index qubit₂)]
  | measureInto qubit result | measureReset qubit result =>
    [.pointer (.index qubit), .pointer (.index result)]
  | operation => operation.qubits.map fun qubit => .pointer (.index qubit)

namespace Operation

variable {operation : Operation} {index : Nat}

/-- The qubits of an operation are passed where its function takes qubits. -/
theorem exists_place_of_mem_qubits (h : index ∈ operation.qubits) : ∃ place : Nat,
    operation.data[place]? = some (.pointer (.index index)) ∧
      operation.callee.signature.params[place]? = some .qubit := by
  cases operation with
  | barrier => cases h
  | toffoli i j k =>
    simp only [qubits, List.mem_cons, List.not_mem_nil, or_false] at h
    rcases h with rfl | rfl | rfl
    · exact ⟨0, rfl, rfl⟩
    · exact ⟨1, rfl, rfl⟩
    · exact ⟨2, rfl, rfl⟩
  | controlled gate i j | swap i j =>
    simp only [qubits, List.mem_cons, List.not_mem_nil, or_false] at h
    rcases h with rfl | rfl
    · exact ⟨0, rfl, rfl⟩
    · exact ⟨1, rfl, rfl⟩
  | rotatePair axis theta i j =>
    simp only [qubits, List.mem_cons, List.not_mem_nil, or_false] at h
    rcases h with rfl | rfl
    · exact ⟨1, rfl, rfl⟩
    · exact ⟨2, rfl, rfl⟩
  | rotate axis theta i =>
    obtain rfl := List.mem_singleton.mp h
    exact ⟨1, rfl, rfl⟩
  | single | reset | measure | measureInto | measureReset =>
    obtain rfl := List.mem_singleton.mp h
    exact ⟨0, rfl, rfl⟩

/-- The result of an operation is passed where its function takes a result. -/
theorem exists_place_of_result? (h : operation.result? = some index) : ∃ place : Nat,
    operation.data[place]? = some (.pointer (.index index)) ∧
      operation.callee.signature.params[place]? = some .result := by
  cases operation with
  | measureInto | measureReset =>
    cases h
    exact ⟨1, rfl, rfl⟩
  | _ => cases h

end Operation

theorem Operand.countedTy_eq {callee : String} {intrinsic : Intrinsic} {place : Nat} {ty : Ty}
    (hname : Intrinsic.ofName? callee = some intrinsic)
    (hty : intrinsic.signature.params[place]? = some ty) (arg : Operand) :
    arg.countedTy callee place = ty := by
  simp [countedTy, hname, hty]

namespace RunState

/-- A qubit is in use from now on. -/
def useQubit (state : RunState) (index : Nat) : RunState :=
  { state with qubitCount := Run.countWith state.qubitCount index }

/-- A result is in use from now on. -/
def useResult (state : RunState) (index : Nat) : RunState :=
  { state with resultCount := Run.countWith state.resultCount index }

theorem exists_foldl_useQubit (qubits : List Nat) (state : RunState) :
    ∃ qubitCount, qubits.foldl useQubit state = { state with qubitCount } := by
  induction qubits generalizing state with
  | nil => exact ⟨state.qubitCount, rfl⟩
  | cons qubit rest ih =>
    obtain ⟨qubitCount, h⟩ := ih (state.useQubit qubit)
    exact ⟨qubitCount, h⟩

/-- The next outcome is taken from the stream. -/
inductive Takes : RunState → Bool → RunState → Prop
  | absent {state : RunState} : state.stream = none → Takes state false state
  | next {state : RunState} {value : Bool} {rest : List Bool} :
      state.stream = some (value :: rest) →
      Takes state value { state with stream := some rest, consumed := state.consumed + 1 }

/-- The outcome behind a result is read. -/
inductive Reads : RunState → Datum → Bool → RunState → Prop
  | carried {state : RunState} {value : Bool} :
      Reads state (.pointer (.outcome value)) value state
  | held {state : RunState} {index : Nat} {value : Bool} :
      state.results.get? index = some value →
      Reads state (.pointer (.index index)) value (state.useResult index)
  | fresh {state taken : RunState} {index : Nat} {value : Bool} :
      state.results.get? index = none → Takes (state.useResult index) value taken →
      Reads state (.pointer (.index index)) value
        { taken with results := taken.results.set index value }

/-- The value that is recorded of an argument. -/
inductive Records : RecordKind → RunState → Datum → OutputValue → RunState → Prop
  | carried {state : RunState} {value : Bool} :
      Records .result state (.pointer (.outcome value)) (.result value) state
  | held {state : RunState} {index : Nat} :
      Records .result state (.pointer (.index index))
        (.result ((state.results.get? index).getD false)) (state.useResult index)
  | bool {state : RunState} {datum : Datum} {value : Bool} :
      datum.truth = .ok value → Records .bool state datum (.bool value) state
  | int {state : RunState} {datum : Datum} {value : Int} :
      datum.signed64 = .ok value → Records .int state datum (.int value) state
  | double {state : RunState} {datum : Datum} {value : Double} :
      datum.number = .ok value → Records .double state datum (.double value) state
  | array {state : RunState} {datum : Datum} {value : Int} :
      datum.signed64 = .ok value → Records .array state datum (.array value) state
  | tuple {state : RunState} {datum : Datum} {value : Int} :
      datum.signed64 = .ok value → Records .tuple state datum (.tuple value) state

end RunState

namespace Run

open RunState

/-- What a function of the catalog does. -/
inductive Performs (module : Module) :
    Intrinsic → List Datum → RunState → Effect → RunState → Prop
  | operation (operation : Operation) {state : RunState} : operation.isMeasurement = false →
      Performs module operation.callee operation.data state (.ofOperation operation)
        (operation.qubits.foldl useQubit state)
  | measure {state taken : RunState} {qubit : Nat} {value : Bool} :
      Takes (state.useQubit qubit) value taken →
      Performs module .measure [.pointer (.index qubit)] state
        ⟨some (.measure qubit), some (.outcome value)⟩
        { taken with measurements := taken.measurements.push ⟨qubit, none, value⟩ }
  | measureInto (operation : Operation) {state taken : RunState} {qubit result : Nat}
      {value : Bool} :
      operation = .measureInto qubit result ∨ operation = .measureReset qubit result →
      Takes ((state.useQubit qubit).useResult result) value taken →
      Performs module operation.callee operation.data state (.ofOperation operation)
        { taken with
          measurements := taken.measurements.push ⟨qubit, some result, value⟩
          results := taken.results.set result value }
  | readResult {state after : RunState} {datum : Datum} {value : Bool} :
      Reads state datum value after →
      Performs module .readResult [datum] state (.ofValue (.bool value)) after
  | resultEqual {state middle after : RunState} {first second : Datum} {value value' : Bool} :
      Reads state first value middle → Reads middle second value' after →
      Performs module .resultEqual [first, second] state (.ofValue (.bool (value == value'))) after
  | record {kind : RecordKind} {state after : RunState} {datum labelDatum : Datum}
      {value : OutputValue} {text : Option String} :
      Records kind state datum value after → label module labelDatum = .ok text →
      Performs module (.record kind) [datum, labelDatum] state .none
        { after with output := after.output.push ⟨value, text⟩ }
  | resultOf {state : RunState} {value : Bool} :
      Performs module (.resultOf value) [] state (.ofValue (.outcome value)) state
  | setUp {state : RunState} {datum : Datum} : Performs module .setUp [datum] state .none state
  | allocate {state : RunState} : state.nextQubit < maxCount →
      Performs module .qubitAllocate [] state (.ofValue (.pointer (.index state.nextQubit)))
        { state with
          nextQubit := state.nextQubit + 1
          qubitCount := max state.qubitCount (state.nextQubit + 1) }
  | release {state : RunState} {datum : Datum} :
      Performs module .qubitRelease [datum] state .none state

variable {α β : Type} {module : Module} {state after : RunState}

theorem bind_eq_ok {action : Run α} {next : α → Run β} {b : β} :
    (action >>= next) state = .ok (b, after) ↔
      ∃ a middle, action state = .ok (a, middle) ∧ next a middle = .ok (b, after) := by
  have hbind : (action >>= next) state = action state >>= fun p => next p.1 p.2 := rfl
  rw [hbind, Verification.bind_eq_ok, Prod.exists]

theorem ofExcept_bind_eq_ok {result : Except EvalError α} {next : α → Run β} {b : β} :
    (ofExcept result >>= next) state = .ok (b, after) ↔
      ∃ a, result = .ok a ∧ next a state = .ok (b, after) := by
  have hbind : (ofExcept result >>= next) state = result >>= fun a => next a state := by
    cases result <;> rfl
  rw [hbind, Verification.bind_eq_ok]

theorem index_eq_ok {register : Register} {datum : Datum} {index : Nat} :
    datum.index register = .ok index ↔ datum = .pointer (.index index) := by
  cases datum with
  | pointer target =>
    cases target with
    | index found => simp [Datum.index]
    | _ => simp [Datum.index]
  | _ => simp [Datum.index]

theorem qubit_bind_eq_ok {datum : Datum} {next : Nat → Run β} {b : β} :
    (qubit datum >>= next) state = .ok (b, after) ↔ ∃ index,
      datum = .pointer (.index index) ∧ next index (state.useQubit index) = .ok (b, after) := by
  rw [qubit, bind_assoc, ofExcept_bind_eq_ok]
  simp only [index_eq_ok]
  rfl

theorem result_bind_eq_ok {datum : Datum} {next : Nat → Run β} {b : β} :
    (result datum >>= next) state = .ok (b, after) ↔ ∃ index,
      datum = .pointer (.index index) ∧ next index (state.useResult index) = .ok (b, after) := by
  rw [result, bind_assoc, ofExcept_bind_eq_ok]
  simp only [index_eq_ok]
  rfl

theorem takes_of_outcome {value : Bool} (h : outcome state = .ok (value, after)) :
    Takes state value after := by
  rw [outcome] at h
  split at h
  · next hstream =>
    cases h
    exact .absent hstream
  · cases h
  · next hstream =>
    cases h
    exact .next hstream

/-- A measurement takes an outcome and is noted down with it. -/
theorem takes_of_measure {index : Nat} {target : Option Nat} {value : Bool}
    (h : measure index target state = .ok (value, after)) : ∃ taken, Takes state value taken ∧
      after = { taken with measurements := taken.measurements.push ⟨index, target, value⟩ } := by
  obtain ⟨_, taken, houtcome, h⟩ := bind_eq_ok.mp h
  cases h
  exact ⟨taken, takes_of_outcome houtcome, rfl⟩

theorem reads_of_read {datum : Datum} {value : Bool} (h : read datum state = .ok (value, after)) :
    Reads state datum value after := by
  rw [read.eq_def] at h
  split at h
  · cases h
    exact .carried
  · obtain ⟨index, hdatum, hindex⟩ := result_bind_eq_ok.mp h
    obtain ⟨found, used, hstored, hfound⟩ := bind_eq_ok.mp hindex
    have hpair : (state.results.get? index, state.useResult index) = _ := Except.ok.inj hstored
    obtain ⟨hget, rfl⟩ := Prod.mk.inj hpair
    rw [hdatum]
    cases found with
    | some held =>
      cases hfound
      exact .held hget
    | none =>
      obtain ⟨_, taken, houtcome, hfresh⟩ := bind_eq_ok.mp hfound
      cases hfresh
      exact .fresh hget (takes_of_outcome houtcome)

theorem records_of_recorded {kind : RecordKind} {datum : Datum} {value : OutputValue}
    (h : recorded kind datum state = .ok (value, after)) :
    Records kind state datum value after := by
  cases kind with
  | result =>
    obtain ⟨_, _, hpeek, h⟩ := bind_eq_ok.mp h
    cases h
    rw [peek.eq_def] at hpeek
    split at hpeek
    · cases hpeek
      exact .carried
    · obtain ⟨index, hdatum, hindex⟩ := result_bind_eq_ok.mp hpeek
      cases hindex
      rw [hdatum]
      exact .held
  | bool =>
    obtain ⟨_, hvalue, h⟩ := ofExcept_bind_eq_ok.mp h
    cases h
    exact .bool hvalue
  | int =>
    obtain ⟨_, hvalue, h⟩ := ofExcept_bind_eq_ok.mp h
    cases h
    exact .int hvalue
  | double =>
    obtain ⟨_, hvalue, h⟩ := ofExcept_bind_eq_ok.mp h
    cases h
    exact .double hvalue
  | array =>
    obtain ⟨_, hvalue, h⟩ := ofExcept_bind_eq_ok.mp h
    cases h
    exact .array hvalue
  | tuple =>
    obtain ⟨_, hvalue, h⟩ := ofExcept_bind_eq_ok.mp h
    cases h
    exact .tuple hvalue

theorem performs_of_measureInto {qubitDatum resultDatum : Datum} {make : Nat → Nat → Operation}
    {effect : Effect} (hmake : make = .measureInto ∨ make = .measureReset)
    (h : measureInto qubitDatum resultDatum make state = .ok (effect, after)) :
    Performs module (make 0 0).callee [qubitDatum, resultDatum] state effect after := by
  obtain ⟨index, hqubit, h⟩ := qubit_bind_eq_ok.mp h
  obtain ⟨target, hresult, h⟩ := result_bind_eq_ok.mp h
  obtain ⟨value, _, hmeasure, h⟩ := bind_eq_ok.mp h
  obtain ⟨taken, htakes, rfl⟩ := takes_of_measure hmeasure
  cases h
  rw [hqubit, hresult]
  rcases hmake with rfl | rfl
  · exact .measureInto (.measureInto index target) (Or.inl rfl) htakes
  · exact .measureInto (.measureReset index target) (Or.inr rfl) htakes

theorem number_eq_ok {datum : Datum} {value : Double} :
    datum.number = .ok value ↔ datum = .double value := by
  cases datum <;> simp [Datum.number]

/-- A function of the catalog does what the rules say. -/
theorem performs_of_perform {intrinsic : Intrinsic} {args : List Datum} {effect : Effect}
    (h : perform module intrinsic args state = .ok (effect, after)) :
    Performs module intrinsic args state effect after := by
  rw [perform.eq_def] at h
  split at h
  · cases h
    exact .operation .barrier rfl
  · obtain ⟨i, ha, h⟩ := qubit_bind_eq_ok.mp h
    obtain ⟨j, hb, h⟩ := qubit_bind_eq_ok.mp h
    obtain ⟨k, hc, h⟩ := qubit_bind_eq_ok.mp h
    cases h
    rw [ha, hb, hc]
    exact .operation (.toffoli i j k) rfl
  · next gate _ _ =>
    obtain ⟨i, ha, h⟩ := qubit_bind_eq_ok.mp h
    obtain ⟨j, hb, h⟩ := qubit_bind_eq_ok.mp h
    cases h
    rw [ha, hb]
    exact .operation (.controlled gate i j) rfl
  · next gate _ =>
    obtain ⟨i, ha, h⟩ := qubit_bind_eq_ok.mp h
    cases h
    rw [ha]
    exact .operation (.single gate i) rfl
  · next axis _ _ =>
    obtain ⟨angle, htheta, h⟩ := ofExcept_bind_eq_ok.mp h
    obtain ⟨i, ha, h⟩ := qubit_bind_eq_ok.mp h
    cases h
    rw [number_eq_ok.mp htheta, ha]
    exact .operation (.rotate axis angle i) rfl
  · next axis _ _ _ =>
    obtain ⟨angle, htheta, h⟩ := ofExcept_bind_eq_ok.mp h
    obtain ⟨i, ha, h⟩ := qubit_bind_eq_ok.mp h
    obtain ⟨j, hb, h⟩ := qubit_bind_eq_ok.mp h
    cases h
    rw [number_eq_ok.mp htheta, ha, hb]
    exact .operation (.rotatePair axis angle i j) rfl
  · obtain ⟨i, ha, h⟩ := qubit_bind_eq_ok.mp h
    obtain ⟨j, hb, h⟩ := qubit_bind_eq_ok.mp h
    cases h
    rw [ha, hb]
    exact .operation (.swap i j) rfl
  · obtain ⟨i, ha, h⟩ := qubit_bind_eq_ok.mp h
    cases h
    rw [ha]
    exact .operation (.reset i) rfl
  · obtain ⟨i, ha, h⟩ := qubit_bind_eq_ok.mp h
    obtain ⟨value, _, hmeasure, h⟩ := bind_eq_ok.mp h
    obtain ⟨taken, htakes, rfl⟩ := takes_of_measure hmeasure
    cases h
    rw [ha]
    exact .measure htakes
  · exact performs_of_measureInto (Or.inl rfl) h
  · exact performs_of_measureInto (Or.inr rfl) h
  · obtain ⟨value, _, hread, h⟩ := bind_eq_ok.mp h
    cases h
    exact .readResult (reads_of_read hread)
  · cases h
    exact .setUp
  · obtain ⟨value, _, hvalue, h⟩ := bind_eq_ok.mp h
    obtain ⟨_, _, hrecord, h⟩ := bind_eq_ok.mp h
    cases h
    obtain ⟨text, hlabel, hrecord⟩ := ofExcept_bind_eq_ok.mp hrecord
    cases hrecord
    exact .record (records_of_recorded hvalue) hlabel
  · cases h
    exact .resultOf
  · obtain ⟨value, _, hfirst, h⟩ := bind_eq_ok.mp h
    obtain ⟨value', _, hsecond, h⟩ := bind_eq_ok.mp h
    cases h
    exact .resultEqual (reads_of_read hfirst) (reads_of_read hsecond)
  · obtain ⟨index, _, hallocate, h⟩ := bind_eq_ok.mp h
    cases h
    rw [allocate] at hallocate
    split at hallocate
    · next hlt =>
      cases hallocate
      exact .allocate hlt
    · cases hallocate
  · cases h
    exact .release
  · cases h

/-- A call that becomes an operation passes what the operation is about. -/
theorem Performs.eq_data {intrinsic : Intrinsic} {args : List Datum} {effect : Effect}
    (h : Performs module intrinsic args state effect after) {operation : Operation}
    (hoperation : effect.operation = some operation) :
    intrinsic = operation.callee ∧ args = operation.data := by
  cases h with
  | operation | measure | measureInto =>
    cases hoperation
    exact ⟨rfl, rfl⟩
  | readResult | resultEqual | record | resultOf | setUp | allocate | release => cases hoperation

/-- Only an allocation returns a pointer to an index. -/
theorem Performs.eq_qubitAllocate {intrinsic : Intrinsic} {args : List Datum} {effect : Effect}
    (h : Performs module intrinsic args state effect after) {index : Nat}
    (hvalue : effect.value = some (.pointer (.index index))) : intrinsic = .qubitAllocate := by
  cases h with
  | allocate => rfl
  | operation | measure | measureInto | readResult | resultEqual | record | resultOf | setUp
  | release => cases hvalue

end Run

namespace Machine

variable {module : Module} {limits : Limits} {machine next : Machine}

/-- A step that calls no function of the catalog only counts; one that does leaves the state as the
function does. -/
theorem Steps.state_cases {call : Option CatalogCall} (h : Steps module limits machine call next) :
    (call = none ∧ next.state = { machine.state with steps := machine.state.steps + 1 }) ∨
      ∃ made, call = some made ∧
        made.before = { machine.state with steps := machine.state.steps + 1 } ∧
        Run.Performs module made.intrinsic made.args made.before made.effect made.after ∧
        next.state = made.after := by
  cases h with
  | execute _ htick hexecutes =>
    obtain rfl := eq_of_tick htick
    cases hexecutes with
    | compute | jump | enter | leave => exact Or.inl ⟨rfl, rfl⟩
    | perform _ _ _ hperform =>
      exact Or.inr ⟨_, rfl, rfl, Run.performs_of_perform hperform, rfl⟩

/-- What an operation is about stands among the operands of the call that became it. -/
theorem Steps.exists_operand {call : CatalogCall} (h : Steps module limits machine (some call) next)
    {operation : Operation} (hoperation : call.effect.operation = some operation) {place : Nat}
    {datum : Datum} (hdatum : operation.data[place]? = some datum) :
    ∃ frame callers result ret callee operands rest operand, machine.frames = frame :: callers ∧
      frame.rest = .call result ret callee operands :: rest ∧
      Intrinsic.ofName? callee = some operation.callee ∧ operands[place]? = some operand ∧
      frame.operand operand = .ok datum := by
  cases h with
  | execute hrest _ hexecutes =>
    cases hexecutes with
    | perform hargs _ hname hperform =>
      obtain ⟨hcallee, hdata⟩ := (Run.performs_of_perform hperform).eq_data hoperation
      rw [hdata] at hargs
      rw [hcallee] at hname
      obtain ⟨operand, hoperand, hvalue⟩ := getElem?_of_mapM hargs hdatum
      exact ⟨_, _, _, _, _, _, _, operand, rfl, hrest, hname, hoperand, hvalue⟩

end Machine

end QuantumIR
