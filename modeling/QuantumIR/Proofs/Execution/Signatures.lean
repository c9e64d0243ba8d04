import QuantumIR.Proofs.Execution.Catalog

/-!
How the catalog and the run agree. Arguments that fit the signature of a function are never refused:
the function becomes the operation on the qubits that were passed, or returns a value of the declared
type, unless the stream of outcomes gives out or no qubit can be allocated any more. A call that
fails hands nothing on, whatever it was passed.
-/

namespace QuantumIR

open Verification

/-- A value that may be passed where a type of the catalog is declared. -/
inductive Datum.Fits (module : Module) : Ty → Datum → Prop
  | qubit (index : Nat) : Fits module .qubit (.pointer (.index index))
  | result (index : Nat) : Fits module .result (.pointer (.index index))
  | outcome (value : Bool) : Fits module .result (.outcome value)
  | int (width : UInt32) (bits : Nat) : Fits module (.int width) (.int width bits)
  | double (value : Double) : Fits module .double (.double value)
  | noLabel : Fits module .label (.pointer (.index 0))
  | label {name : String} {global : GlobalString} : module.global? name = some global →
      Fits module .label (.pointer (.global name))

namespace Datum

variable {module : Module} {datum : Datum}

theorem Fits.of_qubit (h : Fits module .qubit datum) : ∃ index, datum = .pointer (.index index) := by
  generalize hty : Ty.qubit = ty at h
  cases h with
  | qubit index => exact ⟨index, rfl⟩
  | result | outcome | noLabel | label => exact absurd hty (by decide)
  | int | double => cases hty

theorem Fits.of_result (h : Fits module .result datum) :
    (∃ index, datum = .pointer (.index index)) ∨ ∃ value, datum = .outcome value := by
  generalize hty : Ty.result = ty at h
  cases h with
  | result index => exact Or.inl ⟨index, rfl⟩
  | outcome value => exact Or.inr ⟨value, rfl⟩
  | qubit | noLabel | label => exact absurd hty (by decide)
  | int | double => cases hty

theorem Fits.of_int {width : UInt32} (h : Fits module (.int width) datum) :
    ∃ bits, datum = .int width bits := by
  generalize hty : Ty.int width = ty at h
  cases h with
  | int _ bits =>
    cases hty
    exact ⟨bits, rfl⟩
  | qubit | result | outcome | double | noLabel | label => cases hty

theorem Fits.of_double (h : Fits module .double datum) : ∃ value, datum = .double value := by
  generalize hty : Ty.double = ty at h
  cases h with
  | double value => exact ⟨value, rfl⟩
  | qubit | result | outcome | int | noLabel | label => cases hty

/-- What fits a label is one. -/
theorem Fits.label_eq_ok (h : Fits module .label datum) :
    ∃ text, Run.label module datum = .ok text := by
  generalize hty : Ty.label = ty at h
  cases h with
  | noLabel => exact ⟨none, rfl⟩
  | @label name global hglobal =>
    refine ⟨some global.text, ?_⟩
    simp [Run.label, hglobal]
  | qubit | result | outcome => exact absurd hty (by decide)
  | int | double => cases hty

end Datum

namespace Intrinsic

/-- Arguments that may be passed to a function of the catalog. A measurement needs a result that it
can write to. -/
def Accepts (module : Module) (intrinsic : Intrinsic) (args : List Datum) : Prop :=
  List.Forall₂ (Datum.Fits module) intrinsic.signature.params args ∧
    (intrinsic = .measureInto ∨ intrinsic = .measureReset → ∀ value, Datum.outcome value ∉ args)

/-- How many outcomes a call takes at most. -/
def mostOutcomes : Intrinsic → Nat
  | measure | measureInto | measureReset | readResult => 1
  | resultEqual => 2
  | _ => 0

/-- Whether a call becomes an operation. -/
def becomesOperation (intrinsic : Intrinsic) : Bool :=
  intrinsic.isQuantum && intrinsic ≠ readResult

/-- The qubits among the arguments of a call, in their order. -/
def qubitsOf (intrinsic : Intrinsic) (args : List Datum) : List Nat :=
  (intrinsic.signature.params.zip args).filterMap fun
    | (ty, .pointer (.index index)) => if ty.isQubit then some index else none
    | _ => none

end Intrinsic

/-- The stream has fewer outcomes left than are wanted. -/
def RunState.RunsDry (state : RunState) (wanted : Nat) (error : EvalError) : Prop :=
  ∃ left, state.stream = some left ∧ left.length < wanted ∧
    error = .streamExhausted (state.consumed + left.length)

namespace Run

open RunState

variable {α β : Type} {module : Module} {state : RunState}

/-- A part of a run fails only if it wants more outcomes than there are. -/
def Succeeds (wanted : Nat) (action : Run α) (state : RunState) : Prop :=
  (∃ a after, action state = .ok (a, after) ∧
    ∀ more error, after.RunsDry more error → state.RunsDry (wanted + more) error) ∨
  ∃ error, action state = .error error ∧ state.RunsDry wanted error

namespace Succeeds

variable {action : Run α} {next : α → Run β} {wanted more : Nat}

theorem mono (h : Succeeds wanted action state) (hle : wanted ≤ more) :
    Succeeds more action state := by
  rcases h with ⟨a, after, hok, hdry⟩ | ⟨error, herror, left, hleft, hlt, heq⟩
  · refine Or.inl ⟨a, after, hok, fun extra error hafter => ?_⟩
    obtain ⟨left, hleft, hlt, heq⟩ := hdry extra error hafter
    exact ⟨left, hleft, by omega, heq⟩
  · exact Or.inr ⟨error, herror, left, hleft, by omega, heq⟩

/-- What leaves the stream alone wants nothing of it. -/
theorem of_ok {a : α} {after : RunState} (h : action state = .ok (a, after))
    (hstream : after.stream = state.stream) (hconsumed : after.consumed = state.consumed) :
    Succeeds 0 action state := by
  refine Or.inl ⟨a, after, h, fun extra error hafter => ?_⟩
  obtain ⟨left, hleft, hlt, heq⟩ := hafter
  exact ⟨left, hstream ▸ hleft, by omega, hconsumed ▸ heq⟩

theorem bind (h : Succeeds wanted action state)
    (hnext : ∀ a after, action state = .ok (a, after) → Succeeds more (next a) after) :
    Succeeds (wanted + more) (action >>= next) state := by
  have hbind : (action >>= next) state = action state >>= fun p => next p.1 p.2 := rfl
  rcases h with ⟨a, after, hok, hdry⟩ | ⟨error, herror, hdry⟩
  · rw [hok] at hbind
    rcases hnext a after hok with ⟨b, last, hok', hdry'⟩ | ⟨error, herror, hdry'⟩
    · refine Or.inl ⟨b, last, hbind.trans hok', fun extra error hlast => ?_⟩
      rw [Nat.add_assoc]
      exact hdry _ error (hdry' extra error hlast)
    · exact Or.inr ⟨error, hbind.trans herror, hdry _ error hdry'⟩
  · rw [herror] at hbind
    obtain ⟨left, hleft, hlt, heq⟩ := hdry
    exact Or.inr ⟨error, hbind, left, hleft, by omega, heq⟩

/-- What comes last may leave the stream alone. -/
theorem bind_last (h : Succeeds wanted action state)
    (hnext : ∀ a after, action state = .ok (a, after) → Succeeds 0 (next a) after) :
    Succeeds wanted (action >>= next) state :=
  h.bind hnext

/-- What comes first may leave the stream alone. -/
theorem bind_first (h : Succeeds 0 action state)
    (hnext : ∀ a after, action state = .ok (a, after) → Succeeds wanted (next a) after) :
    Succeeds wanted (action >>= next) state :=
  Nat.zero_add wanted ▸ h.bind hnext

end Succeeds

theorem succeeds_outcome (state : RunState) : Succeeds 1 outcome state := by
  cases hstream : state.stream with
  | none =>
    have hok : outcome state = .ok (false, state) := by rw [outcome, hstream]
    exact (Succeeds.of_ok hok rfl rfl).mono (Nat.zero_le 1)
  | some left =>
    cases left with
    | nil =>
      have herror : outcome state = .error (.streamExhausted state.consumed) := by
        rw [outcome, hstream]
      exact Or.inr ⟨_, herror, [], hstream, Nat.zero_lt_one, rfl⟩
    | cons value rest =>
      refine Or.inl ⟨value, { state with stream := some rest, consumed := state.consumed + 1 },
        by rw [outcome, hstream], ?_⟩
      rintro more error ⟨left, hleft, hlt, heq⟩
      cases hleft
      refine ⟨value :: rest, hstream, by rw [List.length_cons]; omega, ?_⟩
      rw [heq, List.length_cons, Nat.add_assoc, Nat.add_comm 1]

theorem succeeds_measure (index : Nat) (target : Option Nat) (state : RunState) :
    Succeeds 1 (measure index target) state := by
  rw [measure]
  refine (succeeds_outcome state).bind_last ?_
  intro value taken _
  exact .of_ok rfl rfl rfl

theorem succeeds_read {datum : Datum} (h : datum.Fits module .result) (state : RunState) :
    Succeeds 1 (read datum) state := by
  rcases h.of_result with ⟨index, rfl⟩ | ⟨value, rfl⟩
  · rw [read.eq_def]
    refine Succeeds.bind_first (.of_ok rfl rfl rfl) ?_
    rintro _ _ ⟨⟩
    refine Succeeds.bind_first (.of_ok rfl rfl rfl) ?_
    rintro _ _ ⟨⟩
    split
    · exact (Succeeds.of_ok rfl rfl rfl).mono (Nat.zero_le 1)
    · refine (succeeds_outcome _).bind_last ?_
      intro value taken _
      exact .of_ok rfl rfl rfl
  · exact (Succeeds.of_ok rfl rfl rfl).mono (Nat.zero_le 1)

theorem succeeds_recorded {kind : RecordKind} {datum : Datum}
    (h : ∃ ty, (Intrinsic.record kind).signature.params = [ty, .label] ∧ datum.Fits module ty)
    (state : RunState) : Succeeds 0 (recorded kind datum) state := by
  obtain ⟨ty, hparams, hfits⟩ := h
  cases kind with
  | result =>
    cases hparams
    rcases hfits.of_result with ⟨index, rfl⟩ | ⟨value, rfl⟩
    · exact .of_ok rfl rfl rfl
    · exact .of_ok rfl rfl rfl
  | double =>
    cases hparams
    obtain ⟨value, rfl⟩ := hfits.of_double
    exact .of_ok rfl rfl rfl
  | bool | int | array | tuple =>
    cases hparams
    obtain ⟨bits, rfl⟩ := hfits.of_int
    exact .of_ok rfl rfl rfl

/-- One argument for one parameter. -/
theorem forall₂_one {first : Ty} {args : List Datum}
    (h : List.Forall₂ (Datum.Fits module) [first] args) : ∃ a, args = [a] ∧ a.Fits module first := by
  obtain ⟨a, _, ha, hrest, rfl⟩ := List.forall₂_cons_left_iff.mp h
  rw [List.forall₂_nil_left_iff.mp hrest]
  exact ⟨a, rfl, ha⟩

theorem forall₂_two {first second : Ty} {args : List Datum}
    (h : List.Forall₂ (Datum.Fits module) [first, second] args) :
    ∃ a b, args = [a, b] ∧ a.Fits module first ∧ b.Fits module second := by
  obtain ⟨a, _, ha, hrest, rfl⟩ := List.forall₂_cons_left_iff.mp h
  obtain ⟨b, rfl, hb⟩ := forall₂_one hrest
  exact ⟨a, b, rfl, ha, hb⟩

theorem forall₂_three {first second third : Ty} {args : List Datum}
    (h : List.Forall₂ (Datum.Fits module) [first, second, third] args) :
    ∃ a b c, args = [a, b, c] ∧ a.Fits module first ∧ b.Fits module second ∧
      c.Fits module third := by
  obtain ⟨a, _, ha, hrest, rfl⟩ := List.forall₂_cons_left_iff.mp h
  obtain ⟨b, c, rfl, hb, hc⟩ := forall₂_two hrest
  exact ⟨a, b, c, rfl, ha, hb, hc⟩

/-- Arguments that a function accepts are not refused. -/
theorem succeeds_perform {intrinsic : Intrinsic} {args : List Datum}
    (h : intrinsic.Accepts module args) (hallocate : intrinsic ≠ .qubitAllocate) (state : RunState) :
    Succeeds intrinsic.mostOutcomes (perform module intrinsic args) state := by
  obtain ⟨hargs, hresult⟩ := h
  cases intrinsic with
  | barrier | resultOf =>
    obtain rfl := List.forall₂_nil_left_iff.mp hargs
    exact .of_ok rfl rfl rfl
  | qubitAllocate => exact absurd rfl hallocate
  | toffoli =>
    obtain ⟨a, b, c, rfl, ha, hb, hc⟩ := forall₂_three hargs
    obtain ⟨i, rfl⟩ := ha.of_qubit
    obtain ⟨j, rfl⟩ := hb.of_qubit
    obtain ⟨k, rfl⟩ := hc.of_qubit
    exact .of_ok rfl rfl rfl
  | controlled | swap =>
    obtain ⟨a, b, rfl, ha, hb⟩ := forall₂_two hargs
    obtain ⟨i, rfl⟩ := ha.of_qubit
    obtain ⟨j, rfl⟩ := hb.of_qubit
    exact .of_ok rfl rfl rfl
  | single | reset =>
    obtain ⟨a, rfl, ha⟩ := forall₂_one hargs
    obtain ⟨i, rfl⟩ := ha.of_qubit
    exact .of_ok rfl rfl rfl
  | rotate =>
    obtain ⟨theta, a, rfl, htheta, ha⟩ := forall₂_two hargs
    obtain ⟨angle, rfl⟩ := htheta.of_double
    obtain ⟨i, rfl⟩ := ha.of_qubit
    exact .of_ok rfl rfl rfl
  | rotatePair =>
    obtain ⟨theta, a, b, rfl, htheta, ha, hb⟩ := forall₂_three hargs
    obtain ⟨angle, rfl⟩ := htheta.of_double
    obtain ⟨i, rfl⟩ := ha.of_qubit
    obtain ⟨j, rfl⟩ := hb.of_qubit
    exact .of_ok rfl rfl rfl
  | measure =>
    obtain ⟨a, rfl, ha⟩ := forall₂_one hargs
    obtain ⟨i, rfl⟩ := ha.of_qubit
    refine Succeeds.bind_first (.of_ok rfl rfl rfl) ?_
    rintro _ _ ⟨⟩
    exact (succeeds_measure _ _ _).bind_last fun _ _ _ => .of_ok rfl rfl rfl
  | measureInto | measureReset =>
    obtain ⟨a, r, rfl, ha, hr⟩ := forall₂_two hargs
    obtain ⟨i, rfl⟩ := ha.of_qubit
    obtain ⟨j, rfl⟩ : ∃ index, r = .pointer (.index index) := by
      refine hr.of_result.resolve_right ?_
      rintro ⟨value, rfl⟩
      exact hresult (by decide) value (List.mem_cons_of_mem _ (List.mem_singleton_self _))
    refine Succeeds.bind_first (.of_ok rfl rfl rfl) ?_
    rintro _ _ ⟨⟩
    refine Succeeds.bind_first (.of_ok rfl rfl rfl) ?_
    rintro _ _ ⟨⟩
    exact (succeeds_measure _ _ _).bind_last fun _ _ _ => .of_ok rfl rfl rfl
  | readResult =>
    obtain ⟨r, rfl, hr⟩ := forall₂_one hargs
    exact (succeeds_read hr state).bind_last fun _ _ _ => .of_ok rfl rfl rfl
  | resultEqual =>
    obtain ⟨a, b, rfl, ha, hb⟩ := forall₂_two hargs
    have hboth : Succeeds (1 + 1) (perform module .resultEqual [a, b]) state :=
      (succeeds_read ha state).bind fun _ after _ =>
        (succeeds_read hb after).bind_last fun _ _ _ => .of_ok rfl rfl rfl
    exact hboth
  | setUp | qubitRelease =>
    obtain ⟨a, rfl, -⟩ := forall₂_one hargs
    exact .of_ok rfl rfl rfl
  | record kind =>
    obtain ⟨ty, hparams⟩ : ∃ ty, (Intrinsic.record kind).signature.params = [ty, .label] := by
      cases kind <;> exact ⟨_, rfl⟩
    rw [hparams] at hargs
    obtain ⟨a, labelDatum, rfl, ha, hlabel⟩ := forall₂_two hargs
    obtain ⟨text, htext⟩ := hlabel.label_eq_ok
    refine Succeeds.bind_first (succeeds_recorded ⟨ty, hparams, ha⟩ state) fun value after _ => ?_
    have hrecord : record module value labelDatum after =
        .ok ((), { after with output := after.output.push ⟨value, text⟩ }) := by
      rw [record, htext]
      rfl
    exact (Succeeds.of_ok hrecord rfl rfl).bind_last fun _ _ _ => .of_ok rfl rfl rfl

end Run

namespace Operation

theorem becomesOperation_callee (operation : Operation) :
    operation.callee.becomesOperation = true := by
  cases operation <;> rfl

/-- An operation is on the qubits that its call passes. -/
theorem qubitsOf_data (operation : Operation) :
    operation.callee.qubitsOf operation.data = operation.qubits := by
  cases operation <;> rfl

/-- Only a measurement without a result returns something. -/
theorem ret_callee (operation : Operation) : operation.callee.signature.ret =
    if operation.callee = .measure then .result else .void := by
  cases operation <;> rfl

end Operation

/-- What a call has done is what the signature of its function says: a value of the declared type
unless none is declared, and one operation on the qubits that were passed or none at all. -/
structure Effect.Agrees (module : Module) (intrinsic : Intrinsic) (args : List Datum)
    (effect : Effect) : Prop where
  value : effect.value = .none ↔ intrinsic.signature.ret = .void
  kind : ∀ datum ∈ effect.value, datum.Fits module intrinsic.signature.ret
  operation : intrinsic.becomesOperation = true →
    ∃ operation, effect.operation = some operation ∧ operation.qubits = intrinsic.qubitsOf args
  silent : intrinsic.becomesOperation = false → effect.operation = .none

namespace Effect

variable {module : Module}

theorem agrees_ofOperation {operation : Operation} (h : operation.callee ≠ .measure) :
    Agrees module operation.callee operation.data (.ofOperation operation) where
  value := by
    rw [operation.ret_callee, if_neg h]
    exact ⟨fun _ => rfl, fun _ => rfl⟩
  kind := fun _ hnone => nomatch hnone
  operation := fun _ => ⟨operation, rfl, operation.qubitsOf_data.symm⟩
  silent := fun hsilent => absurd operation.becomesOperation_callee (by rw [hsilent]; decide)

theorem agrees_ofValue {intrinsic : Intrinsic} {args : List Datum} {value : Datum}
    (hsilent : intrinsic.becomesOperation = false) (hret : intrinsic.signature.ret ≠ .void)
    (h : value.Fits module intrinsic.signature.ret) :
    Agrees module intrinsic args (.ofValue value) where
  value := ⟨fun hnone => (nomatch hnone), fun hvoid => absurd hvoid hret⟩
  kind := by
    rintro _ ⟨⟩
    exact h
  operation := fun hbecomes => absurd hbecomes (by rw [hsilent]; decide)
  silent := fun _ => rfl

theorem agrees_none {intrinsic : Intrinsic} {args : List Datum}
    (hsilent : intrinsic.becomesOperation = false) (hret : intrinsic.signature.ret = .void) :
    Agrees module intrinsic args .none where
  value := ⟨fun _ => hret, fun _ => rfl⟩
  kind := fun _ hnone => nomatch hnone
  operation := fun hbecomes => absurd hbecomes (by rw [hsilent]; decide)
  silent := fun _ => rfl

end Effect

namespace Run

variable {module : Module} {state after : RunState}

/-- What a function of the catalog does agrees with its signature. -/
theorem Performs.agrees {intrinsic : Intrinsic} {args : List Datum} {effect : Effect}
    (h : Performs module intrinsic args state effect after) :
    effect.Agrees module intrinsic args := by
  cases h with
  | operation operation hmeasures =>
    refine Effect.agrees_ofOperation fun hmeasure => ?_
    cases operation <;> cases hmeasure
    cases hmeasures
  | measure =>
    exact {
      value := ⟨fun hnone => (nomatch hnone), fun hvoid => (nomatch hvoid)⟩
      kind := by
        rintro _ ⟨⟩
        exact .outcome _
      operation := fun _ => ⟨_, rfl, rfl⟩
      silent := fun hsilent => nomatch hsilent }
  | measureInto operation hoperation =>
    refine Effect.agrees_ofOperation fun hmeasure => ?_
    rcases hoperation with rfl | rfl <;> cases hmeasure
  | readResult | resultEqual => exact Effect.agrees_ofValue rfl (by decide) (.int 1 _)
  | record =>
    rename_i kind _ _ _ _ _ _ _
    cases kind <;> exact Effect.agrees_none rfl rfl
  | resultOf => exact Effect.agrees_ofValue rfl (fun hvoid => nomatch hvoid) (.outcome _)
  | setUp | release => exact Effect.agrees_none rfl rfl
  | allocate => exact Effect.agrees_ofValue rfl (by decide) (.qubit _)

/-- An allocation takes the next index, if there is one. -/
theorem perform_qubitAllocate (module : Module) (state : RunState) :
    (∃ effect after, perform module .qubitAllocate [] state = .ok (effect, after)) ∨
      maxCount ≤ state.nextQubit ∧ perform module .qubitAllocate [] state =
        .error (.operand (.unallocatable state.nextQubit)) := by
  have hperform : perform module .qubitAllocate [] state =
      allocate state >>= fun p => .ok (.ofValue (.pointer (.index p.1)), p.2) := rfl
  rw [hperform, allocate]
  by_cases hlt : state.nextQubit < maxCount
  · rw [if_pos hlt]
    exact Or.inl ⟨_, _, rfl⟩
  · rw [if_neg hlt]
    exact Or.inr ⟨Nat.le_of_not_lt hlt, rfl⟩

end Run

namespace Machine

variable {σ : Type} {module : Module} {limits : Limits}

/-- An observer of a call to the catalog sees the operation that it has become, and none if the call
fails. -/
theorem turn_call {observer : Observer σ} {seen : σ} {frame : Frame} {callers : List Frame}
    {before state : RunState} {result : Option String} {ret : Ty} {callee : String}
    {operands : List Operand} {rest : List Instruction} {args : List Datum} {intrinsic : Intrinsic}
    (hrest : frame.rest = .call result ret callee operands :: rest)
    (htick : tick limits before = .ok state)
    (hargs : operands.mapM { frame with rest }.operand = .ok args)
    (hnone : module.definition? callee = none) (hname : Intrinsic.ofName? callee = some intrinsic) :
    turn module limits observer (⟨frame :: callers, before⟩, seen) =
      match Run.perform module intrinsic args state with
      | .ok (effect, after) =>
        .inl (⟨{ frame with rest }.bindResult result effect.value :: callers, after⟩,
          effect.operation.elim seen (observer.apply · seen))
      | .error error => .inr (.error error, seen) := by
  have hstep : step module limits frame callers before =
      (Run.perform module intrinsic args state).map fun done =>
        (done.1.operation,
          ⟨{ frame with rest }.bindResult result done.1.value :: callers, done.2⟩) := by
    have hexecute : execute module limits { frame with rest } callers state
      (.call result ret callee operands) = _ := execute_perform hargs hnone hname
    rw [step_cons hrest, htick]
    exact hexecute
  rw [turn, hstep]
  cases Run.perform module intrinsic args state <;> rfl

end Machine

namespace Run

open RunState

/-- The signatures of the catalog and the functions behind them agree. A function that gets what its
signature asks for returns what its signature says and becomes the operation on the qubits that it
got, unless the stream gives out or there is no index left for a new qubit. Whatever a function
gets, an observer sees the operation that the call has become, and nothing if it fails. -/
theorem perform_agrees (module : Module) (intrinsic : Intrinsic) (args : List Datum)
    (state : RunState) :
    (intrinsic.Accepts module args →
      (∃ effect after, perform module intrinsic args state = .ok (effect, after) ∧
        effect.Agrees module intrinsic args) ∨
      (∃ error, perform module intrinsic args state = .error error ∧
        state.RunsDry intrinsic.mostOutcomes error) ∨
      (intrinsic = .qubitAllocate ∧ maxCount ≤ state.nextQubit ∧
        perform module intrinsic args state = .error (.operand (.unallocatable state.nextQubit)))) ∧
    ∀ {σ : Type} (limits : Limits) (observer : Observer σ) (seen : σ) (frame : Frame)
      (callers : List Frame) (before : RunState) (result : Option String) (ret : Ty)
      (callee : String) (operands : List Operand) (rest : List Instruction),
      frame.rest = .call result ret callee operands :: rest →
      Machine.tick limits before = .ok state →
      operands.mapM { frame with rest }.operand = .ok args →
      module.definition? callee = none → Intrinsic.ofName? callee = some intrinsic →
      Machine.turn module limits observer (⟨frame :: callers, before⟩, seen) =
        match perform module intrinsic args state with
        | .ok (effect, after) =>
          .inl (⟨{ frame with rest }.bindResult result effect.value :: callers, after⟩,
            effect.operation.elim seen (observer.apply · seen))
        | .error error => .inr (.error error, seen) := by
  refine ⟨fun haccepts => ?_, ?_⟩
  · by_cases hallocate : intrinsic = .qubitAllocate
    · subst hallocate
      obtain rfl := List.forall₂_nil_left_iff.mp haccepts.1
      rcases perform_qubitAllocate module state with ⟨effect, after, hok⟩ | ⟨hmax, herror⟩
      · exact Or.inl ⟨effect, after, hok, (performs_of_perform hok).agrees⟩
      · exact Or.inr (Or.inr ⟨rfl, hmax, herror⟩)
    · rcases succeeds_perform haccepts hallocate state with ⟨effect, after, hok, -⟩ | hdry
      · exact Or.inl ⟨effect, after, hok, (performs_of_perform hok).agrees⟩
      · exact Or.inr (Or.inl hdry)
  · intro σ limits observer seen frame callers before result ret callee operands rest hrest htick
      hargs hnone hname
    exact Machine.turn_call hrest htick hargs hnone hname

/-- A frame that measures a qubit into a result. -/
def measuringFrame : Frame where
  function := Function.declaration "main" [] .void
  block := ⟨"entry", []⟩
  rest := [.call none .void Intrinsic.measureInto.name [.qubit 3, .result 1]]
  registers := []
  returnTo := none

/-- An observer sees the measurement, on the qubit that was passed. -/
theorem perform_agrees_measuring :
    ∃ machine operation, Machine.turn (.empty "m") .standard .trace
        (⟨[measuringFrame], .start (.declaration "main" [] .void) none⟩, #[]) =
      .inl (machine, #[operation]) ∧ operation.qubits = [3] := by
  let before : RunState := .start (.declaration "main" [] .void) none
  have haccepts : Intrinsic.measureInto.Accepts (.empty "m")
      [.pointer (.index 3), .pointer (.index 1)] := by
    refine ⟨.cons (.qubit 3) (.cons (.result 1) .nil), ?_⟩
    rintro - value hmem
    simp [Datum.outcome] at hmem
  obtain ⟨hperforms, hturn⟩ := perform_agrees (.empty "m") .measureInto
    [.pointer (.index 3), .pointer (.index 1)] { before with steps := 1 }
  have hturn := hturn .standard .trace #[] measuringFrame [] before none .void
    Intrinsic.measureInto.name [.qubit 3, .result 1] [] rfl rfl rfl rfl (by decide)
  rcases hperforms haccepts with ⟨effect, after, hok, hagrees⟩ | ⟨error, -, left, hleft, -⟩ | ⟨h, -⟩
  · obtain ⟨operation, hoperation, hqubits⟩ := hagrees.operation rfl
    rw [hok] at hturn
    dsimp only at hturn
    rw [hoperation] at hturn
    exact ⟨_, operation, hturn, hqubits⟩
  · cases hleft
  · cases h

end Run

end QuantumIR
