import QuantumIR.Eval.Perform
import QuantumIR.Proofs.Verified.Rules

/-!
What functions of the catalog are put together from. A property of parts of a run that is kept when
one part follows another holds of every function of the catalog if it holds of a few parts: of those
that look at an argument, that touch one thing that a run keeps, or that take an outcome.
-/

namespace QuantumIR.Run

/-- A property of parts of a run that holds of all that functions of the catalog are put together
from, and is kept when one part follows another. -/
structure Composable (holds : {α : Type} → Run α → Prop) : Prop where
  pure : ∀ {α : Type} (a : α), holds (Pure.pure a)
  bind : ∀ {α β : Type} {action : Run α} {next : α → Run β},
    holds action → (∀ a, holds (next a)) → holds (action >>= next)
  index : ∀ register datum, holds (ofExcept (Datum.index register datum))
  truth : ∀ datum, holds (ofExcept (Datum.truth datum))
  signed64 : ∀ datum, holds (ofExcept (Datum.signed64 datum))
  number : ∀ datum, holds (ofExcept (Datum.number datum))
  label : ∀ module datum, holds (ofExcept (label module datum))
  useQubit : ∀ index, holds (modify fun state =>
    { state with qubitCount := countWith state.qubitCount index })
  useResult : ∀ index, holds (modify fun state =>
    { state with resultCount := countWith state.resultCount index })
  note : ∀ measurement, holds (modify fun state =>
    { state with measurements := state.measurements.push measurement })
  output : ∀ entry, holds (modify fun state => { state with output := state.output.push entry })
  store : ∀ index value, holds (store index value)
  stored? : ∀ index, holds (stored? index)
  outcome : holds outcome
  allocate : holds allocate
  argumentCount : ∀ {α : Type} callee expected found,
    holds (throw (.operand (.argumentCount callee expected found)) : Run α)

namespace Composable

variable {holds : {α : Type} → Run α → Prop} (h : Composable holds)
include h

theorem qubit (datum : Datum) : holds (qubit datum) :=
  h.bind (h.index .qubit datum) fun index => h.bind (h.useQubit index) fun _ => h.pure index

theorem result (datum : Datum) : holds (result datum) :=
  h.bind (h.index .result datum) fun index => h.bind (h.useResult index) fun _ => h.pure index

theorem read (datum : Datum) : holds (read datum) := by
  rw [read.eq_def]
  split
  · exact h.pure _
  · apply h.bind (h.result _)
    intro index
    apply h.bind (h.stored? index)
    rintro (_ | value)
    · exact h.bind h.outcome fun value => h.bind (h.store index value) fun _ => h.pure value
    · exact h.pure value

theorem peek (datum : Datum) : holds (peek datum) := by
  rw [peek.eq_def]
  split
  · exact h.pure _
  · exact h.bind (h.result _) fun _ => h.bind (h.stored? _) fun _ => h.pure _

theorem measure (index : Nat) (target : Option Nat) : holds (measure index target) :=
  h.bind h.outcome fun _ => h.bind (h.note _) fun _ => h.pure _

theorem record (module : Module) (value : OutputValue) (labelDatum : Datum) :
    holds (record module value labelDatum) :=
  h.bind (h.label module labelDatum) fun _ => h.output _

theorem measureInto (qubitDatum resultDatum : Datum) (make : Nat → Nat → Operation) :
    holds (measureInto qubitDatum resultDatum make) := by
  apply h.bind (h.qubit qubitDatum)
  intro index
  apply h.bind (h.result resultDatum)
  intro target
  exact h.bind (h.measure index (some target)) fun value =>
    h.bind (h.store target value) fun _ => h.pure _

theorem recorded (kind : RecordKind) (datum : Datum) : holds (recorded kind datum) := by
  cases kind with
  | result => exact h.bind (h.peek datum) fun _ => h.pure _
  | bool => exact h.bind (h.truth datum) fun _ => h.pure _
  | double => exact h.bind (h.number datum) fun _ => h.pure _
  | int | array | tuple => exact h.bind (h.signed64 datum) fun _ => h.pure _

/-- What holds of the parts holds of every function of the catalog. -/
theorem perform (module : Module) (intrinsic : Intrinsic) (args : List Datum) :
    holds (perform module intrinsic args) := by
  have hone : ∀ datum (make : Nat → Operation),
      holds (do operation (make (← Run.qubit datum))) :=
    fun datum make => h.bind (h.qubit datum) fun _ => h.pure _
  have htwo : ∀ first second (make : Nat → Nat → Operation),
      holds (do operation (make (← Run.qubit first) (← Run.qubit second))) :=
    fun first second make => h.bind (h.qubit first) fun index => hone second (make index)
  rw [perform.eq_def]
  split
  · exact h.pure _
  · exact h.bind (h.qubit _) fun index => htwo _ _ (Operation.toffoli index)
  · exact htwo _ _ _
  · exact hone _ _
  · exact h.bind (h.number _) fun _ => hone _ _
  · exact h.bind (h.number _) fun _ => htwo _ _ _
  · exact htwo _ _ _
  · exact hone _ _
  · exact h.bind (h.qubit _) fun _ => h.bind (h.measure _ none) fun _ => h.pure _
  · exact h.measureInto _ _ _
  · exact h.measureInto _ _ _
  · exact h.bind (h.read _) fun _ => h.pure _
  · exact h.pure _
  · exact h.bind (h.recorded _ _) fun _ => h.bind (h.record _ _ _) fun _ => h.pure _
  · exact h.pure _
  · exact h.bind (h.read _) fun _ => h.bind (h.read _) fun _ => h.pure _
  · exact h.bind h.allocate fun _ => h.pure _
  · exact h.pure _
  · exact h.argumentCount _ _ _

end Composable

/-- A part of a run that succeeds leaves what a run keeps related to what it was before. -/
def Relates (related : RunState → RunState → Prop) {α : Type} (action : Run α) : Prop :=
  ∀ state a after, action state = .ok (a, after) → related state after

theorem relates_modify {related : RunState → RunState → Prop} {f : RunState → RunState}
    (h : ∀ state, related state (f state)) : Relates related (modify f) := by
  rintro state a after ⟨⟩
  exact h state

/-- A relation of what a run keeps before and after that allows all that functions of the catalog
do to one thing, and one such change after another. -/
structure Allows (related : RunState → RunState → Prop) : Prop where
  refl : ∀ state, related state state
  trans : ∀ before state after, related before state → related state after → related before after
  useQubit : ∀ index state,
    related state { state with qubitCount := countWith state.qubitCount index }
  useResult : ∀ index state,
    related state { state with resultCount := countWith state.resultCount index }
  note : ∀ measurement state,
    related state { state with measurements := state.measurements.push measurement }
  output : ∀ entry state, related state { state with output := state.output.push entry }
  store : ∀ index value state,
    related state { state with results := state.results.set index value }
  outcome : ∀ rest state,
    related state { state with stream := some rest, consumed := state.consumed + 1 }
  allocate : ∀ state, related state { state with
    nextQubit := state.nextQubit + 1, qubitCount := max state.qubitCount (state.nextQubit + 1) }

namespace Allows

variable {related : RunState → RunState → Prop} (h : Allows related)
include h

theorem relates_ofExcept {α : Type} (result : Except EvalError α) :
    Relates related (ofExcept result) := by
  intro state a after hrun
  cases result with
  | error error => cases hrun
  | ok found =>
    cases hrun
    exact h.refl state

/-- What a relation allows of the parts, every function of the catalog does. -/
theorem composable : Composable (Relates related) where
  pure a := h.relates_ofExcept (.ok a)
  bind haction hnext state b after hrun := by
    obtain ⟨⟨a, middle⟩, hfirst, hafter⟩ := Verification.bind_eq_ok.mp hrun
    exact h.trans _ _ _ (haction state a middle hfirst) (hnext a middle b after hafter)
  index _ _ := h.relates_ofExcept _
  truth _ := h.relates_ofExcept _
  signed64 _ := h.relates_ofExcept _
  number _ := h.relates_ofExcept _
  label _ _ := h.relates_ofExcept _
  useQubit index := relates_modify (h.useQubit index)
  useResult index := relates_modify (h.useResult index)
  note measurement := relates_modify (h.note measurement)
  output entry := relates_modify (h.output entry)
  store index value := relates_modify (h.store index value)
  stored? _ := by
    rintro state a after ⟨⟩
    exact h.refl state
  outcome := by
    intro state value after hrun
    rw [Run.outcome] at hrun
    split at hrun <;> cases hrun
    · exact h.refl state
    · exact h.outcome _ state
  allocate := by
    intro state index after hrun
    rw [Run.allocate] at hrun
    split at hrun <;> cases hrun
    exact h.allocate state
  argumentCount _ _ _ := by
    rintro state a after ⟨⟩

end Allows

end QuantumIR.Run
