import QuantumIR.Eval.Perform
import QuantumIR.Proofs.Structured.Program
import QuantumIR.Proofs.Text.Utf8
import QuantumIR.Proofs.Word.BitVectors

/-!
Parts of a run next to parts of a direct interpretation. Where what is known agrees, both take the
same outcomes, hold the same results, and fail together.
-/

namespace QuantumIR

variable {α β : Type} {stream : Option (List Bool)}

/-- A text up to its first zero character, as a string that ends with a zero byte keeps it. -/
def Text.beforeZero (text : String) : String :=
  String.ofList (text.toList.takeWhile (· ≠ '\x00'))

theorem Text.beforeZero_of_not_mem {text : String} (h : '\x00' ∉ text.toList) :
    Text.beforeZero text = text := by
  have hall : ∀ c ∈ text.toList, decide (c ≠ '\x00') = true := by
    intro c hc
    exact decide_eq_true (ne_of_mem_of_not_mem hc h)
  rw [Text.beforeZero, List.takeWhile_eq_self_iff.mpr hall, String.ofList_toList]

/-- A string with a zero byte at its end is read up to the first zero byte. -/
theorem GlobalString.text_eq (global : GlobalString) {text : String}
    (h : global.bytes = Text.utf8 text.toList ++ [0]) : global.text = Text.beforeZero text := by
  rw [GlobalString.text, h, Text.takeWhile_utf8, Text.decodeLossy_utf8, Text.beforeZero]

/-- A record as a program's output shows it, with its label up to the first zero character. -/
def OutputRecord.shown (record : OutputRecord) : OutputRecord :=
  { record with label := record.label.map Text.beforeZero }

/-- What a direct interpretation knows is what a run keeps beside its frames. -/
structure Ledger.Agrees (stream : Option (List Bool)) (ledger : Ledger) (state : RunState) : Prop where
  stream : state.stream = stream.map (List.drop ledger.position)
  consumed : state.consumed = ledger.position
  results : state.results = ledger.results
  measurements : state.measurements.toList = ledger.measurements
  output : state.output.toList = ledger.output.map OutputRecord.shown

/-- Where a part of a run ends, next to where a part of a direct interpretation ends. -/
def EndsAs (stream : Option (List Bool)) (operations : List Operation)
    (result : Except EvalError (α × RunState)) : Except EvalError α × Ledger → Prop
  | (.ok a, ledger) => ∃ state, result = .ok (a, state) ∧ ledger.Agrees stream state ∧
      ledger.operations = operations
  | (.error error, ledger) => result = .error error ∧ ledger.operations = operations

/-- A part of a run does what a part of a direct interpretation does that performs no operation. -/
def Implements (stream : Option (List Bool)) (part : Run α) (meaning : Interpreting α) : Prop :=
  ∀ ledger state, ledger.Agrees stream state →
    EndsAs stream ledger.operations (part state) (meaning.run.run ledger)

namespace Implements

theorem pure (a : α) : Implements stream (Pure.pure a) (Pure.pure a) :=
  fun _ state hagrees => ⟨state, rfl, hagrees, rfl⟩

theorem ok_bind {part : Run α} {next : α → Run β} {state state' : RunState} {a : α}
    (h : part state = .ok (a, state')) : (part >>= next) state = next a state' := by
  change Except.bind (part state) _ = _
  rw [h]
  rfl

theorem error_bind {part : Run α} {next : α → Run β} {state : RunState} {error : EvalError}
    (h : part state = .error error) : (part >>= next) state = .error error := by
  change Except.bind (part state) _ = _
  rw [h]
  rfl

theorem bind {part : Run α} {next : α → Run β} {meaning : Interpreting α}
    {meaning' : α → Interpreting β} (h : Implements stream part meaning)
    (h' : ∀ a, Implements stream (next a) (meaning' a)) :
    Implements stream (part >>= next) (meaning >>= meaning') := by
  intro ledger state hagrees
  have hfirst := h ledger state hagrees
  rw [ExceptT.run_bind, StateT.run_bind]
  generalize meaning.run.run ledger = outcome at hfirst
  obtain ⟨outcome, after⟩ := outcome
  cases outcome with
  | error error =>
    obtain ⟨hpart, hoperations⟩ := hfirst
    exact ⟨error_bind hpart, hoperations⟩
  | ok a =>
    obtain ⟨state', hpart, hagrees', hoperations⟩ := hfirst
    change EndsAs stream ledger.operations _ ((meaning' a).run.run after)
    rw [ok_bind hpart, ← hoperations]
    exact h' a after state' hagrees'

/-- What a run keeps beside what an interpretation knows does not matter. -/
theorem keeps_bind {part : Run α} {next : α → Run β} {meaning : Interpreting β} {a : α}
    (h : ∀ state, ∃ state', part state = .ok (a, state') ∧
      ∀ ledger : Ledger, ledger.Agrees stream state → ledger.Agrees stream state')
    (h' : Implements stream (next a) meaning) : Implements stream (part >>= next) meaning := by
  intro ledger state hagrees
  obtain ⟨state', hpart, hkeeps⟩ := h state
  rw [ok_bind hpart]
  exact h' ledger state' (hkeeps ledger hagrees)

end Implements

namespace Run

theorem run_get_bind (next : Ledger → Interpreting α) (ledger : Ledger) :
    (get >>= next).run.run ledger = (next ledger).run.run ledger :=
  rfl

/-- The next outcome of a stream is the one at the current place. -/
theorem implements_outcome : Implements stream outcome (Interpreting.outcome stream) := by
  intro ledger state hagrees
  have hstream := hagrees.stream
  rw [Interpreting.outcome, run_get_bind]
  cases stream with
  | none =>
    refine ⟨state, ?_, hagrees, rfl⟩
    rw [outcome, hstream]
    rfl
  | some outcomes =>
    cases hplace : outcomes[ledger.position]? with
    | none =>
      have hdrop : outcomes.drop ledger.position = [] :=
        List.drop_eq_nil_iff.mpr (List.getElem?_eq_none_iff.mp hplace)
      rw [Option.map_some, hdrop] at hstream
      simp only [hplace]
      refine ⟨?_, rfl⟩
      rw [outcome, hstream, hagrees.consumed]
    | some value =>
      obtain ⟨hlt, rfl⟩ := List.getElem?_eq_some_iff.mp hplace
      rw [Option.map_some, List.drop_eq_getElem_cons hlt] at hstream
      have houtcome : outcome state = .ok (outcomes[ledger.position], { state with
          stream := some (outcomes.drop (ledger.position + 1)), consumed := state.consumed + 1 }) := by
        rw [outcome, hstream]
      simp only [hplace]
      exact ⟨_, houtcome, ⟨rfl, congrArg (· + 1) hagrees.consumed, hagrees.results,
        hagrees.measurements, hagrees.output⟩, rfl⟩

theorem implements_store (result : Nat) (value : Bool) :
    Implements stream (store result value) (Interpreting.store result value) := by
  intro ledger state hagrees
  refine ⟨_, rfl, ⟨hagrees.stream, hagrees.consumed, ?_, hagrees.measurements, hagrees.output⟩, rfl⟩
  change state.results.set result value = ledger.results.set result value
  rw [hagrees.results]

/-- Counts of qubits and results in use do not matter. -/
theorem keeps_qubit (index : Nat) (state : RunState) :
    ∃ state', qubit (.pointer (.index index)) state = .ok (index, state') ∧
      ∀ ledger : Ledger, ledger.Agrees stream state → ledger.Agrees stream state' :=
  ⟨_, rfl, fun _ h => ⟨h.stream, h.consumed, h.results, h.measurements, h.output⟩⟩

theorem keeps_result (index : Nat) (state : RunState) :
    ∃ state', result (.pointer (.index index)) state = .ok (index, state') ∧
      ∀ ledger : Ledger, ledger.Agrees stream state → ledger.Agrees stream state' :=
  ⟨_, rfl, fun _ h => ⟨h.stream, h.consumed, h.results, h.measurements, h.output⟩⟩

theorem keeps_number (theta : Double) (state : RunState) :
    ∃ state', ofExcept (Datum.double theta).number state = .ok (theta, state') ∧
      ∀ ledger : Ledger, ledger.Agrees stream state → ledger.Agrees stream state' :=
  ⟨state, rfl, fun _ h => h⟩

theorem implements_measure (qubit result : Nat) :
    Implements stream (measure qubit (some result)) (Interpreting.measure stream qubit result) := by
  apply implements_outcome.bind
  intro value ledger state hagrees
  refine ⟨_, rfl, ⟨hagrees.stream, hagrees.consumed, hagrees.results, ?_, hagrees.output⟩, rfl⟩
  rw [Array.toList_push, hagrees.measurements]

theorem implements_stored? (result : Nat) :
    Implements stream (stored? result) (Interpreting.stored? result) := by
  intro ledger state hagrees
  refine ⟨state, ?_, hagrees, rfl⟩
  change Except.ok (state.results.get? result, state) = _
  rw [hagrees.results]

/-- A measurement into a result becomes its operation after the outcome was taken. -/
theorem implements_measureInto (index target : Nat) (make : Nat → Nat → Operation) :
    Implements stream (measureInto (.pointer (.index index)) (.pointer (.index target)) make)
      ((Interpreting.measure stream index target >>= Interpreting.store target) >>= fun _ =>
        return .ofOperation (make index target)) := by
  rw [bind_assoc]
  apply Implements.keeps_bind (keeps_qubit index)
  apply Implements.keeps_bind (keeps_result target)
  apply (implements_measure index target).bind
  intro value
  exact (implements_store target value).bind fun _ => .pure _

/-- Reading a result takes an outcome of the stream if the result holds none. -/
theorem implements_read (index : Nat) :
    Implements stream (read (.pointer (.index index))) (Interpreting.read stream index) := by
  apply Implements.keeps_bind (keeps_result index)
  apply (implements_stored? index).bind
  rintro (_ | value)
  · apply implements_outcome.bind
    intro value
    exact (implements_store index value).bind fun _ => .pure value
  · exact .pure value

/-- A record shows its value under the label that was found. -/
theorem implements_put {module : Module} {labelDatum : Datum} {text : Option String}
    (hlabel : label module labelDatum = .ok (text.map Text.beforeZero)) (value : OutputValue) :
    Implements stream (record module value labelDatum) (Interpreting.put value text) := by
  intro ledger state hagrees
  have hrecord : record module value labelDatum state = .ok ((), { state with
      output := state.output.push ⟨value, text.map Text.beforeZero⟩ }) := by
    change Except.bind (Except.map _ (label module labelDatum)) _ = _
    rw [hlabel]
    rfl
  rw [hrecord]
  refine ⟨_, rfl, ⟨hagrees.stream, hagrees.consumed, hagrees.results, hagrees.measurements, ?_⟩, rfl⟩
  rw [Array.toList_push, hagrees.output]
  simp [OutputRecord.shown]

/-- A recorded result shows what it holds, and takes no outcome. -/
theorem implements_record {module : Module} {labelDatum : Datum} {text : Option String}
    (hlabel : label module labelDatum = .ok (text.map Text.beforeZero)) (index : Nat) :
    Implements stream (perform module (.record .result) [.pointer (.index index), labelDatum])
      (do
        Interpreting.record index text
        return .none) := by
  have hperform : perform module (.record .result) [.pointer (.index index), labelDatum] = (do
      let _ ← result (.pointer (.index index))
      let found ← stored? index
      record module (.result (found.getD false)) labelDatum
      return .none) := rfl
  have hmeaning : (do
      Interpreting.record index text
      return Effect.none : Interpreting Effect) = (do
      let found ← Interpreting.stored? index
      Interpreting.put (.result (found.getD false)) text
      return .none) := rfl
  rw [hperform, hmeaning]
  apply Implements.keeps_bind (keeps_result index)
  apply (implements_stored? index).bind
  intro found
  exact (implements_put hlabel _).bind fun _ => .pure _

/-- The length of a recorded array is the number of its word. -/
theorem implements_recordArray {module : Module} {labelDatum : Datum} {text : Option String}
    (hlabel : label module labelDatum = .ok (text.map Text.beforeZero)) (length : Int64) :
    Implements stream
      (perform module (.record .array) [.int 64 (Word.truncate length 64), labelDatum])
      (do
        Interpreting.put (.array length.toInt) text
        return .none) := by
  have hperform : perform module (.record .array) [.int 64 (Word.truncate length 64), labelDatum] =
      (do
        record module (.array (Word.signed (Word.truncate length 64) 64)) labelDatum
        return .none) := rfl
  rw [hperform, Word.signed_truncate]
  exact (implements_put hlabel _).bind fun _ => .pure _

end Run

/-- What a constant stands for. -/
def Value.constant : Value → Datum
  | .double x => .double x
  | .address index => .pointer (.index index.toInt.toNat)
  | .global name | .firstByte name _ => .pointer (.global name)
  | _ => .pointer (.index 0)

/-- An index in the range of signed words is the address of its pointer. -/
theorem Value.ofIndex_eq {index : Nat} (h : index < 2 ^ 63) :
    ofIndex index = if index = 0 then .null else .address (Int64.ofNat index) := by
  have hmin : min index (UInt64.size / 2 - 1) = index := by
    have hsize : UInt64.size = 2 ^ 64 := rfl
    omega
  rw [ofIndex, hmin]

theorem Value.constant_ofIndex {index : Nat} (h : index < 2 ^ 63) :
    (ofIndex index).constant = .pointer (.index index) := by
  rw [ofIndex_eq h]
  split
  · next hzero =>
    subst hzero
    rfl
  · rw [constant, Int64.toInt_ofNat_of_lt h, Int.toNat_natCast]

/-- A function of the catalog performs its operation, after the measurement if it is one. -/
theorem Run.implements_perform (module : Module) {operation : Operation} {qubits results : Nat}
    (hrange : operation.InRange qubits results) (hqubits : qubits ≤ 2 ^ 63)
    (hresults : results ≤ 2 ^ 63) :
    Implements stream (perform module operation.callee (operation.args.map Value.constant)) (do
      Interpreting.measureFor stream operation
      return .ofOperation operation) := by
  have hconstant : ∀ qubit ∈ operation.qubits,
      (Value.ofIndex qubit).constant = .pointer (.index qubit) :=
    fun qubit hqubit => Value.constant_ofIndex ((hrange.qubits qubit hqubit).trans_le hqubits)
  have hconstant' : ∀ result ∈ operation.result?,
      (Value.ofIndex result).constant = .pointer (.index result) :=
    fun result hresult => Value.constant_ofIndex ((hrange.result result hresult).trans_le hresults)
  cases operation with
  | measure qubit => exact absurd (hrange.measured rfl) Bool.false_ne_true
  | barrier => exact .pure _
  | toffoli a b c =>
    simp only [Operation.args, Operation.qubits, List.map_cons, List.map_nil,
      List.forall_mem_cons] at hconstant ⊢
    rw [hconstant.1, hconstant.2.1, hconstant.2.2.1]
    exact .keeps_bind (keeps_qubit a) (.keeps_bind (keeps_qubit b)
      (.keeps_bind (keeps_qubit c) (.pure _)))
  | controlled gate a b =>
    simp only [Operation.args, Operation.qubits, List.map_cons, List.map_nil,
      List.forall_mem_cons] at hconstant ⊢
    rw [hconstant.1, hconstant.2.1]
    exact .keeps_bind (keeps_qubit a) (.keeps_bind (keeps_qubit b) (.pure _))
  | swap a b =>
    simp only [Operation.args, Operation.qubits, List.map_cons, List.map_nil,
      List.forall_mem_cons] at hconstant ⊢
    rw [hconstant.1, hconstant.2.1]
    exact .keeps_bind (keeps_qubit a) (.keeps_bind (keeps_qubit b) (.pure _))
  | single gate a =>
    simp only [Operation.args, Operation.qubits, List.map_cons, List.map_nil,
      List.forall_mem_cons] at hconstant ⊢
    rw [hconstant.1]
    exact .keeps_bind (keeps_qubit a) (.pure _)
  | reset a =>
    simp only [Operation.args, Operation.qubits, List.map_cons, List.map_nil,
      List.forall_mem_cons] at hconstant ⊢
    rw [hconstant.1]
    exact .keeps_bind (keeps_qubit a) (.pure _)
  | rotate axis theta a =>
    simp only [Operation.args, Operation.qubits, List.map_cons, List.map_nil,
      List.forall_mem_cons] at hconstant ⊢
    rw [hconstant.1]
    exact .keeps_bind (keeps_number theta) (.keeps_bind (keeps_qubit a) (.pure _))
  | rotatePair axis theta a b =>
    simp only [Operation.args, Operation.qubits, List.map_cons, List.map_nil,
      List.forall_mem_cons] at hconstant ⊢
    rw [hconstant.1, hconstant.2.1]
    exact .keeps_bind (keeps_number theta)
      (.keeps_bind (keeps_qubit a) (.keeps_bind (keeps_qubit b) (.pure _)))
  | measureInto a r =>
    simp only [Operation.args, Operation.qubits, List.map_cons, List.map_nil,
      List.forall_mem_cons] at hconstant ⊢
    rw [hconstant.1, hconstant' r rfl]
    exact implements_measureInto a r .measureInto
  | measureReset a r =>
    simp only [Operation.args, Operation.qubits, List.map_cons, List.map_nil,
      List.forall_mem_cons] at hconstant ⊢
    rw [hconstant.1, hconstant' r rfl]
    exact implements_measureInto a r .measureReset

end QuantumIR
