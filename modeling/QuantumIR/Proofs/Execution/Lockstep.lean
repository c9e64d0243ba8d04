import QuantumIR.Proofs.Execution.Reaches

/-!
Two loops in lockstep. If turns from related places lead to related places or to related results,
then both loops stop with related results or go on for ever.
-/

namespace QuantumIR

variable {α α' β β' : Type}

/-- Two results that are related values or related errors. -/
inductive Agree {ε ε' : Type} (errors : ε → ε' → Prop) (values : β → β' → Prop) :
    Except ε β → Except ε' β' → Prop
  | error {fault : ε} {fault' : ε'} : errors fault fault' → Agree errors values (.error fault)
      (.error fault')
  | ok {b : β} {b' : β'} : values b b' → Agree errors values (.ok b) (.ok b')

theorem Agree.bind {ε ε' γ γ' : Type} {errors : ε → ε' → Prop} {values : β → β' → Prop}
    {values' : γ → γ' → Prop} {first : Except ε β} {first' : Except ε' β'} {next : β → Except ε γ}
    {next' : β' → Except ε' γ'} (h : Agree errors values first first')
    (hnext : ∀ b b', values b b' → Agree errors values' (next b) (next' b')) :
    Agree errors values' (first >>= next) (first' >>= next') := by
  cases h with
  | error h => exact .error h
  | ok h => exact hnext _ _ h

theorem Agree.eq {ε : Type} {result result' : Except ε β} (h : Agree Eq Eq result result') :
    result = result' := by
  cases h with
  | error h => rw [h]
  | ok h => rw [h]

section Loops

variable {turn : α → α ⊕ β} {turn' : α' → α' ⊕ β'} {places : α → α' → Prop}
  {results : β → β' → Prop}

/-- A loop in lockstep with another one stops when that does. -/
theorem StopsWith.related
    (hturn : ∀ a a', places a a' → Sum.LiftRel places results (turn a) (turn' a')) {a : α} {a' : α'}
    {b : β} (h : StopsWith turn a b) (ha : places a a') :
    ∃ b', StopsWith turn' a' b' ∧ results b b' := by
  induction h generalizing a' with
  | stop hstop =>
    have hturns := hturn _ _ ha
    rw [hstop] at hturns
    generalize hturn' : turn' a' = result at hturns
    cases hturns with
    | inr hresult => exact ⟨_, .stop hturn', hresult⟩
  | next hnext _ ih =>
    have hturns := hturn _ _ ha
    rw [hnext] at hturns
    generalize hturn' : turn' a' = result at hturns
    cases hturns with
    | inl hplace =>
      obtain ⟨b', hstops, hresult⟩ := ih hplace
      exact ⟨b', .next hturn' hstops, hresult⟩

/-- Loops in lockstep have related results. -/
theorem iterate?_related
    (hturn : ∀ a a', places a a' → Sum.LiftRel places results (turn a) (turn' a')) {a : α} {a' : α'}
    (ha : places a a') : Option.Rel results (iterate? turn a) (iterate? turn' a') := by
  have hback : ∀ a' a, places a a' →
      Sum.LiftRel (fun a' a => places a a') (fun b' b => results b b') (turn' a') (turn a) := by
    intro a' a hplaces
    have hturns := hturn a a' hplaces
    generalize turn a = result at hturns
    generalize turn' a' = result' at hturns
    cases hturns with
    | inl hplace => exact .inl hplace
    | inr hresult => exact .inr hresult
  cases hleft : iterate? turn a with
  | some b =>
    obtain ⟨b', hstops, hresult⟩ := (iterate?_eq_some_iff.mp hleft).related hturn ha
    rw [iterate?_eq_some_iff.mpr hstops]
    exact .some hresult
  | none =>
    cases hright : iterate? turn' a' with
    | none => exact .none
    | some b' =>
      obtain ⟨b, hstops, -⟩ := (iterate?_eq_some_iff.mp hright).related hback ha
      cases hleft.symm.trans (iterate?_eq_some_iff.mpr hstops)

end Loops

namespace Machine

variable {module module' : Module} {limits limits' : Limits} {σ : Type}

/-- Machines in lockstep: either neither has a frame and both know the same at the end, or the steps
of both hand on the same operation and lead to machines in lockstep, or fail with related errors. -/
theorem run_related {errors : EvalError → EvalError → Prop} (machines : Machine → Machine → Prop)
    (hend : ∀ state last, machines ⟨[], state⟩ last →
      last.frames = [] ∧ last.state.metadata = state.metadata)
    (hstep : ∀ frame callers state last, machines ⟨frame :: callers, state⟩ last →
      ∃ frame' callers' state', last = ⟨frame' :: callers', state'⟩ ∧
        Agree errors (fun next next' => next.1 = next'.1 ∧ machines next.2 next'.2)
          (step module limits frame callers state) (step module' limits' frame' callers' state'))
    (observer : Observer σ) {machine machine' : Machine} (h : machines machine machine')
    (seen : σ) :
    Option.Rel (fun result result' => Agree errors Eq result.1 result'.1 ∧ result.2 = result'.2)
      (run module limits observer machine seen) (run module' limits' observer machine' seen) := by
  have hturn : ∀ place place' : Machine × σ, (machines place.1 place'.1 ∧ place.2 = place'.2) →
      Sum.LiftRel (fun place place' => machines place.1 place'.1 ∧ place.2 = place'.2)
        (fun result result' => Agree errors Eq result.1 result'.1 ∧ result.2 = result'.2)
        (turn module limits observer place) (turn module' limits' observer place') := by
    rintro ⟨⟨frames, state⟩, seen⟩ ⟨last, _⟩ ⟨hmachines, rfl⟩
    cases frames with
    | nil =>
      obtain ⟨frames', state'⟩ := last
      obtain ⟨rfl, hmetadata⟩ := hend state _ hmachines
      refine .inr ⟨.ok hmetadata.symm, ?_⟩
      exact congrArg (observer.finish · seen) hmetadata.symm
    | cons frame callers =>
      obtain ⟨frame', callers', state', rfl, hagree⟩ := hstep frame callers state last hmachines
      rw [turn, turn]
      generalize step module limits frame callers state = next at hagree
      generalize step module' limits' frame' callers' state' = next' at hagree
      cases hagree with
      | error herror => exact .inr ⟨.error herror, rfl⟩
      | @ok next next' hnext =>
        obtain ⟨operation, after⟩ := next
        obtain ⟨_, after'⟩ := next'
        obtain ⟨rfl, hafter⟩ := hnext
        exact .inl ⟨hafter, rfl⟩
  exact iterate?_related hturn ⟨h, rfl⟩

/-- A machine whose steps are images of the steps of another one has the same runs. -/
theorem run_map {f : Frame → Frame} {keeps : Machine → Prop}
    (hstep : ∀ frame callers state, keeps ⟨frame :: callers, state⟩ →
      step module' limits (f frame) (callers.map f) state =
        Prod.map id (fun next => ⟨next.frames.map f, next.state⟩) <$>
          step module limits frame callers state)
    (hkeeps : ∀ frame callers state operation next, keeps ⟨frame :: callers, state⟩ →
      step module limits frame callers state = .ok (operation, next) → keeps next)
    (observer : Observer σ) {machine : Machine} (hmachine : keeps machine) (seen : σ) :
    run module' limits observer ⟨machine.frames.map f, machine.state⟩ seen =
      run module limits observer machine seen := by
  have hrelated : Option.Rel (fun result result' => Agree Eq Eq result.1 result'.1 ∧
      result.2 = result'.2) (run module limits observer machine seen)
        (run module' limits observer ⟨machine.frames.map f, machine.state⟩ seen) := by
    refine run_related (fun machine last => keeps machine ∧
      last = ⟨machine.frames.map f, machine.state⟩) ?_ ?_ observer ⟨hmachine, rfl⟩ seen
    · rintro state _ ⟨-, rfl⟩
      exact ⟨rfl, rfl⟩
    · rintro frame callers state _ ⟨hplace, rfl⟩
      refine ⟨f frame, callers.map f, state, rfl, ?_⟩
      rw [hstep frame callers state hplace]
      cases hnext : step module limits frame callers state with
      | error error => exact .error rfl
      | ok next => exact .ok ⟨rfl, hkeeps frame callers state _ _ hplace hnext, rfl⟩
  generalize run module limits observer machine seen = first at hrelated
  generalize run module' limits observer _ seen = second at hrelated
  cases hrelated with
  | none => rfl
  | @some result result' hsame =>
    obtain ⟨hagree, hseen⟩ := hsame
    rw [Prod.ext hagree.eq hseen]

end Machine

end QuantumIR
