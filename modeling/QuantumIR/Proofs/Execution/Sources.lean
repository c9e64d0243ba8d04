import QuantumIR.Proofs.Execution.Catalog
import QuantumIR.Proofs.Execution.Parts

/-!
What a run takes from its source of outcomes. A part of a run that succeeds has taken some outcomes;
from any other source that has the same outcomes to give it does the same, and from a source that
gives out before, it fails there. Steps and whole runs inherit this from their parts.
-/

namespace QuantumIR

/-- Where outcomes come from: those still to come, if there is a stream, and how many were taken. -/
structure Source where
  stream : Option (List Bool)
  consumed : Nat

namespace Source

variable {source left : Source} {first second outcomes : List Bool}

/-- What is left of a source when outcomes are taken from it. Without a stream there are always
more of them, and none is counted. -/
def take (outcomes : List Bool) (source : Source) : Except EvalError Source :=
  match source.stream with
  | none => .ok source
  | some stream =>
    if outcomes.length ≤ stream.length then
      .ok ⟨some (stream.drop outcomes.length), source.consumed + outcomes.length⟩
    else .error (.streamExhausted (source.consumed + stream.length))

/-- Whether a source gives these outcomes and no others, as far as it gives any. -/
def Offers (outcomes : List Bool) (source : Source) : Prop :=
  match source.stream with
  | none => ∀ value ∈ outcomes, value = false
  | some stream => stream <+: outcomes ∨ outcomes <+: stream

theorem take_stream (stream outcomes : List Bool) (consumed : Nat) :
    take outcomes ⟨some stream, consumed⟩ = if outcomes.length ≤ stream.length then
      .ok ⟨some (stream.drop outcomes.length), consumed + outcomes.length⟩
    else .error (.streamExhausted (consumed + stream.length)) := rfl

@[simp] theorem take_nil (source : Source) : source.take [] = .ok source := by
  obtain ⟨stream, consumed⟩ := source
  cases stream <;> simp [take]

theorem offers_nil (source : Source) : source.Offers [] := by
  obtain ⟨stream, consumed⟩ := source
  cases stream <;> simp [Offers]

/-- Outcomes are taken one part after the other. -/
theorem take_append (first second : List Bool) (source : Source) :
    source.take (first ++ second) = source.take first >>= take second := by
  obtain ⟨stream, consumed⟩ := source
  cases stream with
  | none => rfl
  | some stream =>
    by_cases hfirst : first.length ≤ stream.length
    · by_cases hboth : first.length + second.length ≤ stream.length
      · have hsecond : second.length ≤ stream.length - first.length := by omega
        simp [take, bind, Except.bind, hfirst, hboth, hsecond, Nat.add_assoc]
      · have hsecond : ¬second.length ≤ stream.length - first.length := by omega
        have hcount : consumed + first.length + (stream.length - first.length) =
            consumed + stream.length := by omega
        simp [take, bind, Except.bind, hfirst, hboth, hsecond, hcount]
    · have hboth : ¬first.length + second.length ≤ stream.length := by omega
      simp [take, bind, Except.bind, hfirst, hboth]

theorem Offers.of_append (h : source.Offers (first ++ second)) : source.Offers first := by
  obtain ⟨stream, consumed⟩ := source
  cases stream with
  | none => exact fun value hvalue => h value (List.mem_append_left _ hvalue)
  | some stream =>
    rcases h with hstream | houtcomes
    · exact List.prefix_or_prefix_of_prefix hstream (List.prefix_append first second)
    · exact Or.inr ((List.prefix_append first second).trans houtcomes)

/-- A source offers two parts if it offers the first, and what is left of it the second. -/
theorem offers_append_iff (h : source.take first = .ok left) :
    source.Offers (first ++ second) ↔ source.Offers first ∧ left.Offers second := by
  obtain ⟨stream, consumed⟩ := source
  cases stream with
  | none =>
    cases h
    simp only [Offers, List.forall_mem_append]
  | some stream =>
    have hlength : first.length ≤ stream.length := by
      by_contra hlength
      rw [take_stream, if_neg hlength] at h
      cases h
    have hrest : ∀ rest, stream = first ++ rest →
        ((⟨some stream, consumed⟩ : Source).Offers (first ++ second) ↔ left.Offers second) := by
      rintro rest rfl
      rw [take_stream, if_pos hlength] at h
      cases h
      simp [Offers, List.prefix_append_right_inj]
    constructor
    · intro hboth
      have hfirst : first <+: stream := by
        rcases hboth with hstream | houtcomes
        · exact List.prefix_of_prefix_length_le (List.prefix_append first second) hstream hlength
        · exact (List.prefix_append first second).trans houtcomes
      obtain ⟨rest, heq⟩ := hfirst
      exact ⟨Or.inr ⟨rest, heq⟩, (hrest rest heq.symm).mp hboth⟩
    · rintro ⟨hfirst, hsecond⟩
      have hprefix : first <+: stream := by
        rcases hfirst with hstream | hprefix
        · exact hstream.eq_of_length_le hlength ▸ List.prefix_rfl
        · exact hprefix
      obtain ⟨rest, heq⟩ := hprefix
      exact (hrest rest heq.symm).mpr hsecond

/-- A stream that offers an outcome starts with it. -/
theorem Offers.eq_of_cons {value next : Bool} {rest : List Bool} {consumed : Nat}
    (h : (⟨some (next :: rest), consumed⟩ : Source).Offers [value]) : next = value := by
  rcases h with hstream | houtcome
  · exact (List.cons_prefix_cons.mp hstream).1
  · exact (List.cons_prefix_cons.mp houtcome).1.symm

end Source

namespace RunState

/-- The source of the outcomes of a run. -/
def source (state : RunState) : Source :=
  ⟨state.stream, state.consumed⟩

/-- A state with another source of outcomes. -/
def withSource (state : RunState) (source : Source) : RunState :=
  { state with stream := source.stream, consumed := source.consumed }

@[simp] theorem source_withSource (state : RunState) (source : Source) :
    (state.withSource source).source = source := rfl

@[simp] theorem withSource_source (state : RunState) : state.withSource state.source = state := rfl

end RunState

namespace Run

variable {α β : Type} {action : Run α}

/-- A part of a run that, if it succeeds, has taken some outcomes: from another source that offers
them it does the same, or fails because that source gives out. -/
def Draws (action : Run α) : Prop :=
  ∀ state a after, action state = .ok (a, after) → ∃ taken,
    state.source.take taken = .ok after.source ∧ state.source.Offers taken ∧
      ∀ other : Source, other.Offers taken → action (state.withSource other) =
        (other.take taken).map fun left => (a, after.withSource left)

/-- A part of a run that takes no outcome draws none. -/
theorem draws_of_apart (h : ∀ state source, action (state.withSource source) =
    (action state).map fun result => (result.1, result.2.withSource source)) : action.Draws := by
  intro state a after haction
  have hsame := h state state.source
  rw [RunState.withSource_source, haction] at hsame
  have hafter : after = after.withSource state.source := (Prod.mk.inj (Except.ok.inj hsame)).2
  refine ⟨[], ?_, Source.offers_nil _, ?_⟩
  · rw [Source.take_nil, hafter, RunState.source_withSource]
  · intro other _
    rw [h, haction, Source.take_nil]
    rfl

theorem draws_ofExcept (result : Except EvalError α) : (ofExcept result).Draws :=
  draws_of_apart fun _ _ => by cases result <;> rfl

theorem Draws.bind {next : α → Run β} (h : action.Draws) (hnext : ∀ a, (next a).Draws) :
    (action >>= next).Draws := by
  intro state b after hrun
  obtain ⟨a, middle, haction, hafter⟩ := bind_eq_ok.mp hrun
  obtain ⟨first, htake, hoffers, hfirst⟩ := h state a middle haction
  obtain ⟨second, htake', hoffers', hsecond⟩ := hnext a middle b after hafter
  refine ⟨first ++ second, ?_, (Source.offers_append_iff htake).mpr ⟨hoffers, hoffers'⟩, ?_⟩
  · rw [Source.take_append, htake]
    exact htake'
  · intro other hother
    change action (state.withSource other) >>= (fun result => next result.1 result.2) = _
    rw [hfirst other hother.of_append, Source.take_append]
    cases hleft : other.take first with
    | error error => rfl
    | ok left => exact hsecond left ((Source.offers_append_iff hleft).mp hother).2

theorem draws_outcome : outcome.Draws := by
  intro state value after h
  cases takes_of_outcome h with
  | absent hstream =>
    refine ⟨[false], ?_, ?_, ?_⟩
    · simp [Source.take, RunState.source, hstream]
    · simp [Source.Offers, RunState.source, hstream]
    · rintro ⟨stream, consumed⟩ hother
      rcases stream with _ | _ | ⟨value, rest⟩
      · rfl
      · rfl
      · obtain rfl := hother.eq_of_cons
        simp [outcome, Source.take, RunState.withSource, Except.map]
  | @next _ rest hstream =>
    refine ⟨[value], ?_, ?_, ?_⟩
    · simp [Source.take, RunState.source, hstream]
    · simp [Source.Offers, RunState.source, hstream]
    · rintro ⟨stream, consumed⟩ hother
      rcases stream with _ | _ | ⟨next, rest⟩
      · obtain rfl : value = false := by simpa [Source.Offers] using hother
        rfl
      · rfl
      · obtain rfl := hother.eq_of_cons
        simp [outcome, Source.take, RunState.withSource, Except.map]

theorem composable_draws : Composable Draws where
  pure _ := draws_of_apart fun _ _ => rfl
  bind h hnext := h.bind hnext
  index _ _ := draws_ofExcept _
  truth _ := draws_ofExcept _
  signed64 _ := draws_ofExcept _
  number _ := draws_ofExcept _
  label _ _ := draws_ofExcept _
  useQubit _ := draws_of_apart fun _ _ => rfl
  useResult _ := draws_of_apart fun _ _ => rfl
  note _ := draws_of_apart fun _ _ => rfl
  output _ := draws_of_apart fun _ _ => rfl
  store _ _ := draws_of_apart fun _ _ => rfl
  stored? _ := draws_of_apart fun _ _ => rfl
  outcome := draws_outcome
  allocate := draws_of_apart fun state source => by
    by_cases hindex : state.nextQubit < maxCount
    · simp [allocate, RunState.withSource, Except.map, hindex]
    · simp [allocate, RunState.withSource, Except.map, hindex]
  argumentCount _ _ _ := draws_of_apart fun _ _ => rfl

end Run

namespace Machine

variable {module : Module} {limits : Limits} {frame : Frame} {callers : List Frame}
  {state : RunState} {start machine next : Machine} {history : List CatalogCall}

/-- A machine with another source of outcomes. -/
def withSource (machine : Machine) (source : Source) : Machine :=
  { machine with state := machine.state.withSource source }

theorem tick_withSource {ticked : RunState} (h : tick limits state = .ok ticked)
    (source : Source) : tick limits (state.withSource source) = .ok (ticked.withSource source) := by
  obtain rfl := eq_of_tick h
  rw [tick] at h ⊢
  cases hsteps : limits.steps with
  | none => rfl
  | some limit =>
    rw [hsteps] at h
    by_cases hlimit : limit < state.steps + 1
    · simp [hlimit] at h
    · simp [hlimit, RunState.withSource]

/-- A step that succeeds has taken some outcomes, none unless it calls a function of the catalog.
From another source that offers them it does the same, or fails because that source gives out. -/
theorem Steps.draws {call : Option CatalogCall}
    (h : Steps module limits ⟨frame :: callers, state⟩ call next) : ∃ taken,
      state.source.take taken = .ok next.state.source ∧ state.source.Offers taken ∧
      (call = none → taken = []) ∧
      ∀ other : Source, other.Offers taken →
        step module limits frame callers (state.withSource other) =
          (other.take taken).map fun left => (handedOn call, next.withSource left) := by
  cases h with
  | @execute _ _ _ ticked instruction rest _ _ hrest htick hexecutes =>
    have hsource : ticked.source = state.source := by
      rw [eq_of_tick htick]
      rfl
    have hstep : ∀ other, step module limits frame callers (state.withSource other) =
        Machine.execute module limits { frame with rest } callers (ticked.withSource other)
          instruction := by
      intro other
      rw [step_cons hrest, tick_withSource htick]
      rfl
    -- What does not call the catalog leaves the source alone, so the same rule allows it.
    have hapart : ∀ after : Machine, after.state = ticked → (∀ other, Executes module limits
        { frame with rest } callers (ticked.withSource other) instruction none
          (after.withSource other)) →
        ∃ taken, state.source.take taken = .ok after.state.source ∧ state.source.Offers taken ∧
          ((none : Option CatalogCall) = none → taken = []) ∧
          ∀ other : Source, other.Offers taken →
            step module limits frame callers (state.withSource other) =
              (other.take taken).map fun left => (handedOn none, after.withSource left) := by
      intro after hafter hrule
      refine ⟨[], ?_, Source.offers_nil _, fun _ => rfl, ?_⟩
      · rw [Source.take_nil, hafter, hsource]
      · intro other _
        rw [hstep, execute_eq_ok_iff.mpr ⟨none, hrule other, rfl⟩, Source.take_nil]
        rfl
    cases hexecutes with
    | compute hcomputes => exact hapart _ rfl fun _ => .compute hcomputes
    | jump hgoes hjump => exact hapart _ rfl fun _ => .jump hgoes hjump
    | enter hargs hfunction hdepth => exact hapart _ rfl fun _ => .enter hargs hfunction hdepth
    | leave hdatum => exact hapart _ rfl fun _ => .leave hdatum
    | perform hargs hnone hname hperform =>
      obtain ⟨taken, htake, hoffers, hother⟩ :=
        Run.composable_draws.perform module _ _ _ _ _ hperform
      rw [hsource] at htake hoffers
      refine ⟨taken, htake, hoffers, by simp, ?_⟩
      intro other hoffer
      rw [hstep, execute_perform hargs hnone hname, hother other hoffer]
      cases other.take taken <;> rfl

/-- How a run fails from another source that gives out. Up to some call it is the same run; that
call takes an outcome that the other source does not have, so neither it nor a later one is made. -/
inductive GivesOut (module : Module) (limits : Limits) (start : Machine) (other : Source) :
    List CatalogCall → EvalError → Prop
  | during {earlier later : List CatalogCall} {call : CatalogCall} {before after : List Bool}
      {left : Source} {error : EvalError} {stuck : Machine} :
      start.state.source.take before = .ok call.before.source →
      start.state.source.take after = .ok call.after.source →
      other.take before = .ok left → other.take after = .error error →
      Reaches module limits (start.withSource other) (operationsOf earlier) stuck →
      stuck.outcome? module limits = some (.error error) →
      GivesOut module limits start other (earlier ++ call :: later) error

theorem GivesOut.append {other : Source} {error : EvalError}
    (h : GivesOut module limits start other history error) (more : List CatalogCall) :
    GivesOut module limits start other (history ++ more) error := by
  cases h with
  | during hbefore hafter hleft herror hreaches hstuck =>
    rw [List.append_assoc, List.cons_append]
    exact .during hbefore hafter hleft herror hreaches hstuck

/-- A run has taken some outcomes on its way. From another source that offers them it is the same
run, or fails because that source gives out. -/
theorem Runs.draws (h : Runs module limits start history machine) : ∃ taken,
    start.state.source.take taken = .ok machine.state.source ∧ start.state.source.Offers taken ∧
    ∀ other : Source, other.Offers taken →
      (∀ left, other.take taken = .ok left → Reaches module limits (start.withSource other)
        (operationsOf history) (machine.withSource left)) ∧
      ∀ error, other.take taken = .error error →
        GivesOut module limits start other history error := by
  induction h with
  | refl =>
    refine ⟨[], Source.take_nil _, Source.offers_nil _, fun other _ => ⟨?_, ?_⟩⟩
    · intro left hleft
      obtain rfl : other = left := Except.ok.inj ((Source.take_nil other).symm.trans hleft)
      exact .refl _
    · intro error herror
      cases (Source.take_nil other).symm.trans herror
  | @step history machine next call _ hsteps ih =>
    obtain ⟨taken, htake, hoffers, hother⟩ := ih
    obtain ⟨frames, state⟩ := machine
    obtain _ | ⟨frame, callers⟩ := frames
    · cases hsteps
    obtain ⟨more, htake', hoffers', hnone, hother'⟩ := hsteps.draws
    have hall : start.state.source.take (taken ++ more) = .ok next.state.source := by
      rw [Source.take_append, htake]
      exact htake'
    refine ⟨taken ++ more, hall, (Source.offers_append_iff htake).mpr ⟨hoffers, hoffers'⟩, ?_⟩
    intro other hoffer
    obtain ⟨hreaches, hgives⟩ := hother other hoffer.of_append
    cases hleft : other.take taken with
    | error fault =>
      refine ⟨fun left hok => ?_, fun error herror => ?_⟩
      · rw [Source.take_append, hleft] at hok
        cases hok
      · rw [Source.take_append, hleft] at herror
        cases herror
        exact (hgives fault hleft).append _
    | ok left =>
      have hstep := hother' left ((Source.offers_append_iff hleft).mp hoffer).2
      have hboth : other.take (taken ++ more) = left.take more := by
        rw [Source.take_append, hleft]
        rfl
      refine ⟨fun last hlast => ?_, fun error herror => ?_⟩
      · rw [← hboth, hlast] at hstep
        rw [operationsOf_append, operationsOf_toList]
        simpa using (hreaches left hleft).trans (.step hstep (.refl _))
      · have hstuck := hstep
        rw [← hboth, herror] at hstuck
        rcases hsteps.state_cases with ⟨rfl, -⟩ | ⟨made, rfl, hbefore, -, hafter⟩
        · obtain rfl := hnone rfl
          rw [hboth, Source.take_nil] at herror
          cases herror
        · have hsource : made.before.source = state.source := by
            rw [hbefore]
            rfl
          rw [← hsource] at htake
          rw [hafter] at hall
          refine .during htake hall hleft herror (hreaches left hleft) ?_
          simp [outcome?, withSource, hstuck, Except.map]

end Machine

end QuantumIR
