import Mathlib
import QuantumIR.Evaluation

/-!
Runs as sequences of steps. A run has an outcome exactly if the machine comes to a point at which
it stops: to the return from the entry point, or to an instruction that fails. What the observer
has seen then is what the steps before that point handed on.
-/

namespace QuantumIR

variable {σ : Type}

namespace Observer

/-- What an observer has seen after some operations. -/
def watch (observer : Observer σ) (operations : List Operation) (seen : σ) : σ :=
  operations.foldl (fun seen operation => observer.apply operation seen) seen

/-- What an observer has seen after the outcome of a run. It is told of success only. -/
def conclude (observer : Observer σ) : Except EvalError RunMetadata → σ → σ
  | .ok metadata, seen => observer.finish metadata seen
  | .error _, seen => seen

theorem watch_append (observer : Observer σ) (first second : List Operation) (seen : σ) :
    observer.watch (first ++ second) seen = observer.watch second (observer.watch first seen) :=
  List.foldl_append

theorem watch_toList (observer : Observer σ) (operation : Option Operation) (seen : σ) :
    observer.watch operation.toList seen = operation.elim seen (observer.apply · seen) := by
  cases operation <;> rfl

theorem toList_watch_trace (operations : List Operation) (seen : Array Operation) :
    (trace.watch operations seen).toList = seen.toList ++ operations := by
  induction operations generalizing seen with
  | nil => exact (List.append_nil _).symm
  | cons operation rest ih =>
    have hpush := ih (seen.push operation)
    rwa [Array.toList_push, List.append_assoc] at hpush

end Observer

namespace Frame

@[simp]
theorem function_bindResult (name : Option String) (datum : Option Datum) (frame : Frame) :
    (frame.bindResult name datum).function = frame.function := by
  cases name <;> cases datum <;> rfl

@[simp]
theorem block_bindResult (name : Option String) (datum : Option Datum) (frame : Frame) :
    (frame.bindResult name datum).block = frame.block := by
  cases name <;> cases datum <;> rfl

@[simp]
theorem rest_bindResult (name : Option String) (datum : Option Datum) (frame : Frame) :
    (frame.bindResult name datum).rest = frame.rest := by
  cases name <;> cases datum <;> rfl

@[simp]
theorem returnTo_bindResult (name : Option String) (datum : Option Datum) (frame : Frame) :
    (frame.bindResult name datum).returnTo = frame.returnTo := by
  cases name <;> cases datum <;> rfl

end Frame

namespace Machine

variable {module : Module} {limits : Limits} {observer : Observer σ}

/-- What a machine comes to by executing instructions, with the operations that it hands on. -/
inductive Reaches (module : Module) (limits : Limits) : Machine → List Operation → Machine → Prop
  | refl (machine : Machine) : Reaches module limits machine [] machine
  | step {frame : Frame} {callers : List Frame} {state : RunState} {operation : Option Operation}
      {next last : Machine} {operations : List Operation} :
      Machine.step module limits frame callers state = .ok (operation, next) →
      Reaches module limits next operations last →
      Reaches module limits ⟨frame :: callers, state⟩ (operation.toList ++ operations) last

/-- How a run ends at a machine that does not go on. -/
def outcome? (module : Module) (limits : Limits) : Machine → Option (Except EvalError RunMetadata)
  | ⟨[], state⟩ => some (.ok state.metadata)
  | ⟨frame :: callers, state⟩ =>
    match Machine.step module limits frame callers state with
    | .error error => some (.error error)
    | .ok _ => none

/-- A machine that has frames stops there only by a failure of the next step. -/
theorem outcome?_cons_eq_some_iff {frame : Frame} {callers : List Frame} {state : RunState}
    {outcome : Except EvalError RunMetadata} :
    outcome? module limits ⟨frame :: callers, state⟩ = some outcome ↔
      ∃ error, step module limits frame callers state = .error error ∧
        outcome = .error error := by
  rw [outcome?]
  cases step module limits frame callers state with
  | error error => simp [eq_comm]
  | ok result => simp

/-- A property that every step keeps holds of all that a machine comes to. -/
theorem Reaches.preserves {keeps : Machine → Prop}
    (hstep : ∀ frame callers state operation next, keeps ⟨frame :: callers, state⟩ →
      Machine.step module limits frame callers state = .ok (operation, next) → keeps next)
    {machine last : Machine} {operations : List Operation}
    (h : Reaches module limits machine operations last) (hstart : keeps machine) : keeps last := by
  induction h with
  | refl machine => exact hstart
  | step hfirst _ ih => exact ih (hstep _ _ _ _ _ hstart hfirst)

theorem Reaches.trans {first second third : Machine} {operations operations' : List Operation}
    (h : Reaches module limits first operations second)
    (h' : Reaches module limits second operations' third) :
    Reaches module limits first (operations ++ operations') third := by
  induction h with
  | refl machine => exact h'
  | step hstep _ ih =>
    rw [List.append_assoc]
    exact .step hstep (ih h')

/-- A return changes the frames below at most by the value that it brings. -/
theorem forall_mem_leave {keeps : Frame → Prop} {callers : List Frame} {returnTo : Option String}
    {datum : Option Datum} (h : ∀ caller ∈ callers, keeps caller)
    (hbind : ∀ caller, keeps caller → keeps (caller.bindResult returnTo datum)) :
    ∀ caller ∈ leave callers returnTo datum, keeps caller := by
  cases callers with
  | nil => exact h
  | cons caller others =>
    obtain ⟨hcaller, hothers⟩ := List.forall_mem_cons.mp h
    exact List.forall_mem_cons.mpr ⟨hbind caller hcaller, hothers⟩

/-- Turns that stop are steps up to a machine that stops. -/
theorem exists_reaches_of_stopsWith {place : Machine × σ}
    {result : Except EvalError RunMetadata × σ}
    (h : StopsWith (turn module limits observer) place result) :
    ∃ operations last, Reaches module limits place.1 operations last ∧
      last.outcome? module limits = some result.1 ∧
      result.2 = observer.conclude result.1 (observer.watch operations place.2) := by
  induction h with
  | @stop place result hturn =>
    obtain ⟨⟨frames, state⟩, seen⟩ := place
    cases frames with
    | nil =>
      cases hturn
      exact ⟨[], ⟨[], state⟩, .refl _, rfl, rfl⟩
    | cons frame callers =>
      rw [turn] at hturn
      cases hstep : step module limits frame callers state with
      | error error =>
        rw [hstep] at hturn
        cases hturn
        refine ⟨[], ⟨frame :: callers, state⟩, .refl _, ?_, rfl⟩
        rw [outcome?, hstep]
      | ok next =>
        rw [hstep] at hturn
        cases hturn
  | @next place place' result hturn _ ih =>
    obtain ⟨⟨frames, state⟩, seen⟩ := place
    cases frames with
    | nil => cases hturn
    | cons frame callers =>
      rw [turn] at hturn
      cases hstep : step module limits frame callers state with
      | error error =>
        rw [hstep] at hturn
        cases hturn
      | ok result =>
        obtain ⟨operation, next⟩ := result
        rw [hstep] at hturn
        cases hturn
        obtain ⟨operations, last, hreaches, hlast, hfinal⟩ := ih
        refine ⟨operation.toList ++ operations, last, .step hstep hreaches, hlast, ?_⟩
        rw [hfinal, Observer.watch_append, Observer.watch_toList]

/-- A run that has an outcome stops at a machine that the first one comes to. -/
theorem exists_reaches_of_run {machine : Machine} {seen final : σ}
    {outcome : Except EvalError RunMetadata}
    (h : machine.run module limits observer seen = some (outcome, final)) :
    ∃ operations last, Reaches module limits machine operations last ∧
      last.outcome? module limits = some outcome ∧
      final = observer.conclude outcome (observer.watch operations seen) :=
  exists_reaches_of_stopsWith (iterate?_eq_some_iff.mp h)

/-- A machine that comes to a point at which it stops has the outcome of that point. -/
theorem Reaches.stopsWith {machine last : Machine} {operations : List Operation}
    {outcome : Except EvalError RunMetadata} (h : Reaches module limits machine operations last)
    (hlast : last.outcome? module limits = some outcome) (seen : σ) :
    StopsWith (turn module limits observer) (machine, seen)
      (outcome, observer.conclude outcome (observer.watch operations seen)) := by
  induction h generalizing seen with
  | refl machine =>
    apply StopsWith.stop
    obtain ⟨frames, state⟩ := machine
    cases frames with
    | nil =>
      cases hlast
      rfl
    | cons frame callers =>
      rw [outcome?] at hlast
      rw [turn]
      cases hstep : Machine.step module limits frame callers state with
      | error error =>
        rw [hstep] at hlast
        cases hlast
        rfl
      | ok result =>
        rw [hstep] at hlast
        cases hlast
  | @step frame callers state operation next last operations hstep _ ih =>
    rw [Observer.watch_append, Observer.watch_toList]
    refine StopsWith.next ?_ (ih hlast _)
    rw [turn, hstep]

theorem Reaches.run_eq {machine last : Machine} {operations : List Operation}
    {outcome : Except EvalError RunMetadata} (h : Reaches module limits machine operations last)
    (hlast : last.outcome? module limits = some outcome) (seen : σ) :
    machine.run module limits observer seen =
      some (outcome, observer.conclude outcome (observer.watch operations seen)) :=
  iterate?_eq_some_iff.mpr (h.stopsWith hlast seen)

theorem metadata_of_outcome? {machine : Machine} {metadata : RunMetadata}
    (h : machine.outcome? module limits = some (.ok metadata)) :
    machine.state.metadata = metadata := by
  obtain ⟨frames, state⟩ := machine
  cases frames with
  | nil =>
    cases h
    rfl
  | cons frame callers =>
    rw [outcome?] at h
    split at h <;> cases h

end Machine

namespace Module

variable {module : Module} {limits : Limits} {observer : Observer σ} {entryPoint : Option String}
  {stream : Option (List Bool)} {seen : σ}

/-- An evaluation that ends could not start, or comes to the machine at which it stops. -/
theorem evaluate?_cases {outcome : Except EvalError RunMetadata} {final : σ}
    (h : module.evaluate? limits observer entryPoint stream seen = some (outcome, final)) :
    (∃ error, module.prepare entryPoint stream = .error error ∧ outcome = .error error) ∨
      ∃ start operations last, module.prepare entryPoint stream = .ok start ∧
        Machine.Reaches module limits start operations last ∧
        last.outcome? module limits = some outcome ∧
        final = observer.conclude outcome (observer.watch operations seen) := by
  rw [evaluate?] at h
  split at h
  · next error hprepare =>
    cases h
    exact Or.inl ⟨error, hprepare, rfl⟩
  · next start hprepare =>
    obtain ⟨operations, last, hrun⟩ := Machine.exists_reaches_of_run h
    exact Or.inr ⟨start, operations, last, hprepare, hrun⟩

/-- An error is that of a run without end, of one that could not start or of one that stopped. -/
theorem evaluate_error_cases {error : EvalError}
    (h : (module.evaluate limits observer entryPoint stream seen).1 = .error error) :
    error = .stepLimit UInt64.size ∨ module.prepare entryPoint stream = .error error ∨
      ∃ start operations last, module.prepare entryPoint stream = .ok start ∧
        Machine.Reaches module limits start operations last ∧
        last.outcome? module limits = some (.error error) := by
  rw [evaluate] at h
  cases heval : module.evaluate? limits observer entryPoint stream seen with
  | none =>
    rw [heval] at h
    cases h
    exact Or.inl rfl
  | some result =>
    rw [heval] at h
    have houtcome : result.1 = .error error := h
    rcases evaluate?_cases heval with ⟨fault, hprepare, hfault⟩ |
      ⟨start, operations, last, hprepare, hreaches, hlast, -⟩
    · cases hfault.symm.trans houtcome
      exact Or.inr (Or.inl hprepare)
    · rw [houtcome] at hlast
      exact Or.inr (Or.inr ⟨start, operations, last, hprepare, hreaches, hlast⟩)

end Module

end QuantumIR
