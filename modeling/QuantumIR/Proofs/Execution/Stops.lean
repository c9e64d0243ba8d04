import QuantumIR.Proofs.Execution.Reaches

/-!
Where evaluations stop. Whatever watches an evaluation sees the same operations and the same
outcome, so an evaluation that stops has one trace and one outcome.
-/

namespace QuantumIR.Module

variable {module : Module} {limits : Limits} {entryPoint : Option String}
  {stream : Option (List Bool)} {operations operations' : List Operation}
  {outcome outcome' : Except EvalError RunMetadata}

/-- An evaluation stops with an outcome after it has handed on some operations: an observer sees
these operations in their order and then, if the outcome is a success, what is known at the end. -/
def Stops (module : Module) (limits : Limits) (entryPoint : Option String)
    (stream : Option (List Bool)) (operations : List Operation)
    (outcome : Except EvalError RunMetadata) : Prop :=
  ∀ (σ : Type) (observer : Observer σ) (seen : σ),
    module.evaluate? limits observer entryPoint stream seen =
      some (outcome, observer.conclude outcome (observer.watch operations seen))

theorem stops_of_prepare {error : EvalError} (h : module.prepare entryPoint stream = .error error) :
    module.Stops limits entryPoint stream [] (.error error) := by
  intro σ observer seen
  rw [evaluate?, h]
  rfl

theorem stops_of_reaches {start last : Machine} (h : module.prepare entryPoint stream = .ok start)
    (hreaches : Machine.Reaches module limits start operations last)
    (hlast : last.outcome? module limits = some outcome) :
    module.Stops limits entryPoint stream operations outcome := by
  intro σ observer seen
  rw [evaluate?, h]
  exact hreaches.run_eq hlast seen

/-- What one observer sees of an evaluation that stops, all observers see. -/
theorem exists_stops {σ : Type} {observer : Observer σ} {seen final : σ}
    (h : module.evaluate? limits observer entryPoint stream seen = some (outcome, final)) :
    ∃ operations, module.Stops limits entryPoint stream operations outcome ∧
      final = observer.conclude outcome (observer.watch operations seen) := by
  rcases evaluate?_cases h with ⟨error, hprepare, rfl⟩ |
    ⟨start, operations, last, hprepare, hreaches, hlast, hfinal⟩
  · have hstops : module.Stops limits entryPoint stream [] (.error error) :=
      stops_of_prepare hprepare
    refine ⟨[], hstops, ?_⟩
    have hsame := h.symm.trans (hstops σ observer seen)
    cases hsame
    rfl
  · exact ⟨operations, stops_of_reaches hprepare hreaches hlast, hfinal⟩

/-- An evaluation stops in one way. -/
theorem Stops.unique (h : module.Stops limits entryPoint stream operations outcome)
    (h' : module.Stops limits entryPoint stream operations' outcome') :
    operations = operations' ∧ outcome = outcome' := by
  have hsame := Option.some.inj ((h _ .trace #[]).symm.trans (h' _ .trace #[]))
  obtain ⟨rfl, htrace⟩ := Prod.mk.inj hsame
  have hconclude : ∀ seen : Array Operation, Observer.trace.conclude outcome seen = seen := by
    cases outcome <;> exact fun _ => rfl
  rw [hconclude, hconclude] at htrace
  have hlist := congrArg Array.toList htrace
  rw [Observer.toList_watch_trace, Observer.toList_watch_trace] at hlist
  exact ⟨hlist, rfl⟩

/-- An evaluation that stops could not start, or comes to the machine at which it stops. -/
theorem Stops.cases (h : module.Stops limits entryPoint stream operations outcome) :
    (∃ error, module.prepare entryPoint stream = .error error ∧ operations = [] ∧
      outcome = .error error) ∨
    ∃ start last, module.prepare entryPoint stream = .ok start ∧
      Machine.Reaches module limits start operations last ∧
      last.outcome? module limits = some outcome := by
  rcases evaluate?_cases (h _ .trace #[]) with ⟨error, hprepare, rfl⟩ |
    ⟨start, reached, last, hprepare, hreaches, hlast, -⟩
  · obtain ⟨rfl, -⟩ := h.unique (stops_of_prepare hprepare)
    exact Or.inl ⟨error, hprepare, rfl, rfl⟩
  · obtain ⟨rfl, -⟩ := h.unique (stops_of_reaches hprepare hreaches hlast)
    exact Or.inr ⟨start, last, hprepare, hreaches, hlast⟩

end QuantumIR.Module
