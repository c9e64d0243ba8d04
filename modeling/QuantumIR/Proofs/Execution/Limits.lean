import QuantumIR.Proofs.Execution.Counted
import QuantumIR.Proofs.Execution.Stops
import QuantumIR.Proofs.Verified.Starting

/-!
What limits do to a run. A limit on steps cuts a run short before the first instruction past it and
changes nothing before. A limit on frames is kept at any time, and a run that does not meet it is
the same under every higher one.
-/

namespace QuantumIR

open Verification

namespace Machine

variable {module : Module} {limits : Limits} {frame : Frame} {callers : List Frame}
  {state : RunState} {machine start last : Machine} {operations : List Operation}
  {steps : Option Nat} {count limit depth depth' : Nat}

/-- Before its limit a run does not notice it. -/
theorem step_of_lt_limit (h : state.steps < limit) :
    step module ⟨some limit, depth⟩ frame callers state =
      step module ⟨none, depth⟩ frame callers state := by
  have htick : tick ⟨some limit, depth⟩ state = tick ⟨none, depth⟩ state :=
    if_neg (Nat.not_lt.mpr h)
  rw [step, htick]
  rfl

/-- Where there is no next instruction a run does not notice its limit. -/
theorem step_of_rest_eq_nil (h : frame.rest = []) :
    step module ⟨some limit, depth⟩ frame callers state =
      step module ⟨none, depth⟩ frame callers state := by
  rw [step, step, h]

/-- At its limit a run fails before the next instruction. -/
theorem step_of_limit_le (h : limit ≤ state.steps) (hrest : frame.rest ≠ []) :
    step module ⟨some limit, depth⟩ frame callers state = .error (.stepLimit limit) := by
  obtain ⟨instruction, rest, hrest⟩ := List.exists_cons_of_ne_nil hrest
  have htick : tick ⟨some limit, depth⟩ state = .error (.stepLimit limit) :=
    if_pos (Nat.lt_succ_of_le h)
  rw [step_cons hrest, htick]
  rfl

theorem outcome?_of_limit_le (h : limit ≤ machine.state.steps) (hfetches : machine.Fetches) :
    machine.outcome? module ⟨some limit, depth⟩ = some (.error (.stepLimit limit)) := by
  obtain ⟨_ | ⟨frame, callers⟩, state⟩ := machine
  · exact hfetches.elim
  · rw [outcome?, step_of_limit_le h hfetches]

/-- A run that stops within its limit stops as it does without one. -/
theorem outcome?_of_within (h : machine.state.steps + (if machine.Fetches then 1 else 0) ≤ limit) :
    machine.outcome? module ⟨some limit, depth⟩ = machine.outcome? module ⟨none, depth⟩ := by
  obtain ⟨_ | ⟨frame, callers⟩, state⟩ := machine
  · rfl
  · by_cases hrest : frame.rest = []
    · rw [outcome?, outcome?, step_of_rest_eq_nil hrest]
    · have hfetches : Fetches ⟨frame :: callers, state⟩ := hrest
      rw [if_pos hfetches] at h
      rw [outcome?, outcome?, step_of_lt_limit h]

/-- As far as its limit goes a run is the one without a limit. -/
theorem ReachesIn.within (h : ReachesIn module ⟨none, depth⟩ count machine operations last)
    (hlimit : machine.state.steps + count ≤ limit) :
    ReachesIn module ⟨some limit, depth⟩ count machine operations last := by
  induction h with
  | refl machine => exact .refl machine
  | step hstep _ ih =>
    have hnext := steps_of_step hstep
    refine .step (.trans (step_of_lt_limit ?_) hstep) (ih ?_)
    · dsimp only at hlimit
      omega
    · dsimp only at hlimit
      omega

theorem length_leave (callers : List Frame) (returnTo : Option String) (datum : Option Datum) :
    (leave callers returnTo datum).length = callers.length := by
  cases callers <;> rfl

/-- A step keeps within the limit on frames. -/
theorem Steps.length_frames_le {call : Option CatalogCall} {next : Machine}
    (h : machine.frames.length ≤ limits.depth) (hsteps : Steps module limits machine call next) :
    next.frames.length ≤ limits.depth := by
  cases hsteps with
  | execute _ _ hexecutes =>
    cases hexecutes with
    | compute | jump | perform => exact h
    | enter _ _ hdepth => exact hdepth
    | leave => exact (length_leave _ _ _).trans_le (Nat.le_of_succ_le h)

/-- There are never more frames than the limit allows, if it allows that of the entry point. -/
theorem Reaches.length_frames_le (hreaches : Reaches module limits machine operations last)
    (h : machine.frames.length ≤ limits.depth) : last.frames.length ≤ limits.depth := by
  apply hreaches.preserves
  · intro frame callers state operation next hkept hstep
    obtain ⟨call, hsteps, -⟩ := step_eq_ok_iff.mp hstep
    exact hsteps.length_frames_le hkept
  · exact h

/-- A call that does not meet the limit on frames is the same under a higher one. -/
theorem call_of_depth_le {result : Option String} {callee : String} {args : List Datum}
    (hdepth : depth ≤ depth')
    (h : call module ⟨steps, depth⟩ frame callers state result callee args ≠
      .error (.callDepth depth)) :
    call module ⟨steps, depth'⟩ frame callers state result callee args =
      call module ⟨steps, depth⟩ frame callers state result callee args := by
  rw [call.eq_def] at h
  rw [call.eq_def, call.eq_def]
  cases hfunction : module.definition? callee with
  | none => cases Intrinsic.ofName? callee <;> rfl
  | some function =>
    rw [hfunction] at h
    have hless : callers.length + 1 < depth := by
      by_contra hless
      exact h (if_neg hless)
    dsimp only
    rw [if_pos hless, if_pos (hless.trans_le hdepth)]

/-- A step that does not meet the limit on frames is the same under a higher one. -/
theorem step_of_depth_le (hdepth : depth ≤ depth')
    (h : step module ⟨steps, depth⟩ frame callers state ≠ .error (.callDepth depth)) :
    step module ⟨steps, depth'⟩ frame callers state =
      step module ⟨steps, depth⟩ frame callers state := by
  cases hrest : frame.rest with
  | nil => rw [step, step, hrest]
  | cons instruction rest =>
    rw [step_cons hrest] at h
    rw [step_cons hrest, step_cons hrest]
    have htick : tick ⟨steps, depth'⟩ state = tick ⟨steps, depth⟩ state := rfl
    rw [htick]
    cases hticked : tick ⟨steps, depth⟩ state with
    | error error => rfl
    | ok ticked =>
      rw [hticked] at h
      cases instruction with
      | call result ret callee operands =>
        dsimp only [bind, Except.bind, execute] at h ⊢
        cases hargs : operands.mapM (Frame.operand { frame with rest }) with
        | error error => rfl
        | ok args =>
          rw [hargs] at h
          exact call_of_depth_le hdepth h
      | _ => rfl

/-- Whether a run from a machine never meets the limit on frames. -/
def NeverTooDeep (module : Module) (steps : Option Nat) (depth : Nat) (machine : Machine) : Prop :=
  ∀ operations last, Reaches module ⟨steps, depth⟩ machine operations last →
    last.outcome? module ⟨steps, depth⟩ ≠ some (.error (.callDepth depth))

theorem NeverTooDeep.step_ne (h : NeverTooDeep module steps depth ⟨frame :: callers, state⟩) :
    step module ⟨steps, depth⟩ frame callers state ≠ .error (.callDepth depth) := by
  intro hstep
  apply h [] _ (.refl _)
  rw [outcome?, hstep]

theorem NeverTooDeep.of_reaches (h : NeverTooDeep module steps depth machine)
    (hreaches : Reaches module ⟨steps, depth⟩ machine operations last) :
    NeverTooDeep module steps depth last :=
  fun _ _ hmore => h _ _ (hreaches.trans hmore)

theorem NeverTooDeep.outcome?_eq (h : NeverTooDeep module steps depth machine)
    (hdepth : depth ≤ depth') :
    machine.outcome? module ⟨steps, depth'⟩ = machine.outcome? module ⟨steps, depth⟩ := by
  obtain ⟨_ | ⟨frame, callers⟩, state⟩ := machine
  · rfl
  · rw [outcome?, outcome?, step_of_depth_le hdepth h.step_ne]

/-- A run that never meets the limit on frames is the same under a higher one. -/
theorem NeverTooDeep.reaches_iff (h : NeverTooDeep module steps depth machine)
    (hdepth : depth ≤ depth') : Reaches module ⟨steps, depth'⟩ machine operations last ↔
      Reaches module ⟨steps, depth⟩ machine operations last := by
  constructor
  · intro hreaches
    -- The lower limit is met nowhere on the way, so the step under the higher one is its own.
    induction hreaches with
    | refl machine => exact .refl machine
    | step hstep _ ih =>
      rw [step_of_depth_le hdepth h.step_ne] at hstep
      exact .step hstep (ih (h.of_reaches (.step hstep (.refl _))))
  · intro hreaches
    induction hreaches with
    | refl machine => exact .refl machine
    | step hstep _ ih =>
      refine .step ((step_of_depth_le hdepth h.step_ne).trans hstep) (ih ?_)
      exact h.of_reaches (.step hstep (.refl _))

end Machine

namespace Module

open Machine

variable {module : Module} {limits : Limits} {entryPoint : Option String}
  {stream : Option (List Bool)} {operations : List Operation}
  {outcome : Except EvalError RunMetadata} {steps : Option Nat} {count depth depth' : Nat}

/-- What an evaluation hands on while it executes so many instructions. -/
def Dispatches (module : Module) (limits : Limits) (entryPoint : Option String)
    (stream : Option (List Bool)) (count : Nat) (operations : List Operation) : Prop :=
  ∃ start last, module.prepare entryPoint stream = .ok start ∧
    ReachesIn module limits count start operations last

/-- An evaluation stops after it has fetched so many instructions. An instruction that fails is
fetched but not executed. -/
inductive StopsAfter (module : Module) (limits : Limits) (entryPoint : Option String)
    (stream : Option (List Bool)) :
    Nat → List Operation → Except EvalError RunMetadata → Prop
  | unprepared {error : EvalError} :
      module.prepare entryPoint stream = .error error →
      StopsAfter module limits entryPoint stream 0 [] (.error error)
  | stopped {count : Nat} {start last : Machine} {operations : List Operation}
      {outcome : Except EvalError RunMetadata} :
      module.prepare entryPoint stream = .ok start →
      ReachesIn module limits count start operations last →
      last.outcome? module limits = some outcome →
      StopsAfter module limits entryPoint stream (count + if last.Fetches then 1 else 0)
        operations outcome

/-- An evaluation that stops fetches some number of instructions. -/
theorem stops_iff_stopsAfter : module.Stops limits entryPoint stream operations outcome ↔
    ∃ count, module.StopsAfter limits entryPoint stream count operations outcome := by
  constructor
  · intro h
    rcases h.cases with ⟨error, hprepare, rfl, rfl⟩ | ⟨start, last, hprepare, hreaches, hlast⟩
    · exact ⟨0, .unprepared hprepare⟩
    · obtain ⟨count, hreaches⟩ := reaches_iff_reachesIn.mp hreaches
      exact ⟨_, .stopped hprepare hreaches hlast⟩
  · rintro ⟨count, h⟩
    cases h with
    | unprepared hprepare => exact stops_of_prepare hprepare
    | stopped hprepare hreaches hlast =>
      exact stops_of_reaches hprepare (reaches_iff_reachesIn.mpr ⟨_, hreaches⟩) hlast

theorem steps_of_prepare {start : Machine} (h : module.prepare entryPoint stream = .ok start) :
    start.state.steps = 0 := by
  obtain ⟨entry, -, rfl⟩ := exists_start_of_prepare h
  rfl

/-- A limit on steps that leaves an evaluation all the instructions that it fetches does not change
it. -/
theorem StopsAfter.within
    (h : module.StopsAfter ⟨none, depth⟩ entryPoint stream count operations outcome) {limit : Nat}
    (hlimit : count ≤ limit) :
    module.Stops ⟨some limit, depth⟩ entryPoint stream operations outcome := by
  cases h with
  | unprepared hprepare => exact stops_of_prepare hprepare
  | @stopped count start last _ _ hprepare hreaches hlast =>
    have hstart := steps_of_prepare hprepare
    have hsteps := hreaches.steps_eq
    have hbefore : start.state.steps + count ≤ limit := by omega
    have hwithin : last.state.steps + (if last.Fetches then 1 else 0) ≤ limit := by
      rw [hsteps, hstart, Nat.zero_add]
      exact hlimit
    refine stops_of_reaches hprepare (reaches_iff_reachesIn.mpr ⟨count, hreaches.within hbefore⟩) ?_
    rw [outcome?_of_within hwithin, hlast]

/-- At its limit on steps an evaluation fails that has not stopped before. -/
theorem stops_stepLimit {start last : Machine} {limit : Nat}
    (hprepare : module.prepare entryPoint stream = .ok start)
    (hreaches : ReachesIn module ⟨none, depth⟩ limit start operations last)
    (hfetches : last.Fetches) :
    module.Stops ⟨some limit, depth⟩ entryPoint stream operations (.error (.stepLimit limit)) := by
  have hstart := steps_of_prepare hprepare
  have hsteps := hreaches.steps_eq
  have hwithin : ReachesIn module ⟨some limit, depth⟩ limit start operations last :=
    hreaches.within (by omega)
  refine stops_of_reaches hprepare (reaches_iff_reachesIn.mpr ⟨limit, hwithin⟩) ?_
  exact outcome?_of_limit_le (by omega) hfetches

/-- An evaluation that would fetch more instructions than it may fails at its limit. -/
theorem StopsAfter.beyond
    (h : module.StopsAfter ⟨none, depth⟩ entryPoint stream count operations outcome) {limit : Nat}
    (hlimit : limit < count) : ∃ dispatched, dispatched <+: operations ∧
      module.Dispatches ⟨none, depth⟩ entryPoint stream limit dispatched ∧
      module.Stops ⟨some limit, depth⟩ entryPoint stream dispatched
        (.error (.stepLimit limit)) := by
  cases h with
  | unprepared => cases hlimit
  | @stopped count start last _ _ hprepare hreaches hlast =>
    have hle : limit ≤ count := by
      split at hlimit <;> omega
    obtain ⟨dispatched, rest, middle, hmiddle, hrest, rfl⟩ := hreaches.exists_after hle
    refine ⟨dispatched, List.prefix_append _ _, ⟨start, middle, hprepare, hmiddle⟩, ?_⟩
    apply stops_stepLimit hprepare hmiddle
    -- Either the run goes on from there, or it stops there at an instruction that it fetches.
    generalize hleft : count - limit = left at hrest
    cases hrest with
    | refl =>
      by_contra hfetches
      rw [if_neg hfetches] at hlimit
      omega
    | step hstep => exact fetches_of_step hstep

/-- An evaluation that never stops fails at every limit on steps. -/
theorem stops_of_endless
    (h : ∀ count operations outcome,
      ¬module.StopsAfter ⟨none, depth⟩ entryPoint stream count operations outcome) (limit : Nat) :
    ∃ dispatched, module.Dispatches ⟨none, depth⟩ entryPoint stream limit dispatched ∧
      module.Stops ⟨some limit, depth⟩ entryPoint stream dispatched
        (.error (.stepLimit limit)) := by
  cases hprepare : module.prepare entryPoint stream with
  | error error => exact absurd (.unprepared hprepare) (h 0 [] (.error error))
  | ok start =>
    have hendless : ∀ operations last, Reaches module ⟨none, depth⟩ start operations last →
        last.outcome? module ⟨none, depth⟩ = none := by
      intro operations last hreaches
      obtain ⟨count, hreaches⟩ := reaches_iff_reachesIn.mp hreaches
      cases hlast : last.outcome? module ⟨none, depth⟩ with
      | none => rfl
      | some outcome => exact absurd (.stopped hprepare hreaches hlast) (h _ operations outcome)
    obtain ⟨dispatched, last, hreaches, hfetches⟩ := exists_reachesIn hendless limit
    have hstops := stops_stepLimit hprepare hreaches hfetches
    exact ⟨dispatched, ⟨start, last, hprepare, hreaches⟩, hstops⟩

/-- An evaluation that does not fail at its limit on frames is the same under a higher one. -/
theorem stops_iff_of_depth_le
    (h : ∀ operations limit,
      ¬module.Stops ⟨steps, depth⟩ entryPoint stream operations (.error (.callDepth limit)))
    (hdepth : depth ≤ depth') :
    (∀ start operations last, module.prepare entryPoint stream = .ok start →
      (Reaches module ⟨steps, depth'⟩ start operations last ↔
        Reaches module ⟨steps, depth⟩ start operations last)) ∧
    ∀ operations outcome, module.Stops ⟨steps, depth'⟩ entryPoint stream operations outcome ↔
      module.Stops ⟨steps, depth⟩ entryPoint stream operations outcome := by
  have hnever : ∀ start, module.prepare entryPoint stream = .ok start →
      NeverTooDeep module steps depth start := fun start hprepare operations last hreaches hlast =>
    h operations depth (stops_of_reaches hprepare hreaches hlast)
  refine ⟨fun start operations last hprepare => (hnever start hprepare).reaches_iff hdepth, ?_⟩
  intro operations outcome
  constructor
  · intro hstops
    rcases hstops.cases with ⟨error, hprepare, rfl, rfl⟩ | ⟨start, last, hprepare, hreaches, hlast⟩
    · exact stops_of_prepare hprepare
    · have hreaches' := ((hnever start hprepare).reaches_iff hdepth).mp hreaches
      refine stops_of_reaches hprepare hreaches' ?_
      rw [← ((hnever start hprepare).of_reaches hreaches').outcome?_eq hdepth, hlast]
  · intro hstops
    rcases hstops.cases with ⟨error, hprepare, rfl, rfl⟩ | ⟨start, last, hprepare, hreaches, hlast⟩
    · exact stops_of_prepare hprepare
    · have hreaches' := ((hnever start hprepare).reaches_iff hdepth).mpr hreaches
      refine stops_of_reaches hprepare hreaches' ?_
      rw [((hnever start hprepare).of_reaches hreaches).outcome?_eq hdepth, hlast]

/-- Limits only cut evaluations short. An evaluation that stops after fetching some number of
instructions is the same under every limit on steps that allows them; under a lower one, and under
every one if it never stops, it fails at the limit after handing on what it hands on up to there
without one. There are never more frames than the limit on them, and an evaluation that does not
fail at that limit is the same under every higher one. -/
theorem limits_cut_short (module : Module) (entryPoint : Option String)
    (stream : Option (List Bool)) :
    (∀ depth count operations outcome,
      module.StopsAfter ⟨none, depth⟩ entryPoint stream count operations outcome → ∀ limit,
        (count ≤ limit →
          module.Stops ⟨some limit, depth⟩ entryPoint stream operations outcome) ∧
        (limit < count → ∃ dispatched, dispatched <+: operations ∧
          module.Dispatches ⟨none, depth⟩ entryPoint stream limit dispatched ∧
          module.Stops ⟨some limit, depth⟩ entryPoint stream dispatched
            (.error (.stepLimit limit)))) ∧
    (∀ depth, (∀ count operations outcome,
        ¬module.StopsAfter ⟨none, depth⟩ entryPoint stream count operations outcome) →
      ∀ limit, ∃ dispatched, module.Dispatches ⟨none, depth⟩ entryPoint stream limit dispatched ∧
        module.Stops ⟨some limit, depth⟩ entryPoint stream dispatched (.error (.stepLimit limit))) ∧
    (∀ limits start operations last, 1 ≤ limits.depth →
      module.prepare entryPoint stream = .ok start → Reaches module limits start operations last →
      last.frames.length ≤ limits.depth) ∧
    ∀ steps depth, (∀ operations limit,
        ¬module.Stops ⟨steps, depth⟩ entryPoint stream operations (.error (.callDepth limit))) →
      ∀ depth', depth ≤ depth' →
        (∀ start operations last, module.prepare entryPoint stream = .ok start →
          (Reaches module ⟨steps, depth'⟩ start operations last ↔
            Reaches module ⟨steps, depth⟩ start operations last)) ∧
        ∀ operations outcome, module.Stops ⟨steps, depth'⟩ entryPoint stream operations outcome ↔
          module.Stops ⟨steps, depth⟩ entryPoint stream operations outcome := by
  refine ⟨?_, ?_, ?_, ?_⟩
  · intro depth count operations outcome h limit
    exact ⟨h.within, h.beyond⟩
  · intro depth h limit
    exact stops_of_endless h limit
  · intro limits start operations last hdepth hprepare hreaches
    obtain ⟨entry, -, rfl⟩ := exists_start_of_prepare hprepare
    exact hreaches.length_frames_le hdepth
  · intro steps depth h depth' hdepth
    exact stops_iff_of_depth_le h hdepth

/-- An entry point that flips a qubit and starts again. -/
def flipForever : Module where
  name := "flip"
  source := none
  opaqueTypes := ["Qubit"]
  globals := []
  functions := [
    { name := "main", ret := .void, params := []
      attributes := [.flag "entry_point", .keyValue "required_num_qubits" "1",
        .keyValue "required_num_results" "0"]
      blocks := [⟨"again", [.call none .void "__quantum__qis__x__body" [.qubit 0],
        .branch "again"]⟩] },
    Function.declaration "__quantum__qis__x__body" [.qubit] .void]

/-- The only frame of a run of `flipForever`, with what is left of its block. -/
def flipForeverFrame (rest : List Instruction) : Frame where
  function := flipForever.functions.head!
  block := flipForever.functions.head!.blocks.head!
  rest := rest
  registers := []
  returnTo := none

/-- Whether a machine is before one of the two instructions of `flipForever`. -/
def FlipsForever (machine : Machine) : Prop :=
  machine.frames = [flipForeverFrame flipForever.functions.head!.instructions] ∨
    machine.frames = [flipForeverFrame [.branch "again"]]

theorem FlipsForever.exists_step {machine : Machine} (h : FlipsForever machine) (depth : Nat) :
    ∃ frame callers state operation next, machine = ⟨frame :: callers, state⟩ ∧
      FlipsForever next ∧
      step flipForever ⟨none, depth⟩ frame callers state = .ok (operation, next) := by
  obtain ⟨frames, state⟩ := machine
  rcases h with rfl | rfl
  · exact ⟨_, _, state, _, _, rfl, Or.inr rfl, rfl⟩
  · exact ⟨_, _, state, _, _, rfl, Or.inl rfl, rfl⟩

theorem not_stopsAfter_flipForever (depth : Nat) (stream : Option (List Bool)) (count : Nat)
    (operations : List Operation) (outcome : Except EvalError RunMetadata) :
    ¬flipForever.StopsAfter ⟨none, depth⟩ none stream count operations outcome := by
  have hprepare : flipForever.prepare none stream =
      .ok (.start flipForever.functions.head! stream) :=
    prepare_of_verify rfl rfl (by decide) stream
  intro h
  cases h with
  | unprepared herror => cases hprepare.symm.trans herror
  | @stopped _ start last _ _ hstart hreaches hlast =>
    cases hprepare.symm.trans hstart
    have hlasting : FlipsForever last := by
      refine (reaches_iff_reachesIn.mpr ⟨_, hreaches⟩).preserves ?_ (Or.inl rfl)
      intro frame callers state operation next hflips hstep
      obtain ⟨_, _, _, _, _, heq, hnext, hstep'⟩ := hflips.exists_step depth
      cases heq
      cases hstep'.symm.trans hstep
      exact hnext
    obtain ⟨frame, callers, state, operation, next, rfl, -, hstep⟩ := hlasting.exists_step depth
    rw [outcome?, hstep] at hlast
    cases hlast

theorem limits_cut_short_flips :
    (∃ metadata,
      flipTwice.StopsAfter ⟨none, 2⟩ none none 9 [.single .x 0, .single .x 0] (.ok metadata) ∧
      flipTwice.Stops ⟨some 9, 2⟩ none none [.single .x 0, .single .x 0] (.ok metadata) ∧
      (∃ dispatched, flipTwice.Stops ⟨some 5, 2⟩ none none dispatched (.error (.stepLimit 5))) ∧
      flipTwice.Stops ⟨none, 1024⟩ none none [.single .x 0, .single .x 0] (.ok metadata)) ∧
    (∀ start operations last, flipTwice.prepare none none = .ok start →
      Reaches flipTwice ⟨none, 2⟩ start operations last → last.frames.length ≤ 2) ∧
    ∃ dispatched, flipForever.Stops ⟨some 1000000, 1⟩ none none dispatched
      (.error (.stepLimit 1000000)) := by
  obtain ⟨hsteps, -, hframes, hdepth⟩ := limits_cut_short flipTwice none none
  obtain ⟨-, hendless, -, -⟩ := limits_cut_short flipForever none none
  have hprepare : flipTwice.prepare none none =
      .ok (.start flipTwice.functions.head! none) :=
    prepare_of_verify rfl rfl (by decide) none
  have hreaches : ∃ operations last metadata, ReachesIn flipTwice ⟨none, 2⟩ 9
      (.start flipTwice.functions.head! none) operations last ∧ ¬last.Fetches ∧
      operations = [.single .x 0, .single .x 0] ∧
      last.outcome? flipTwice ⟨none, 2⟩ = some (.ok metadata) :=
    ⟨_, _, _, .step rfl (.step rfl (.step rfl (.step rfl (.step rfl (.step rfl (.step rfl
      (.step rfl (.step rfl (.refl _))))))))), id, rfl, rfl⟩
  obtain ⟨_, last, metadata, hreaches, hfetches, rfl, hlast⟩ := hreaches
  have hstops := StopsAfter.stopped hprepare hreaches hlast
  rw [if_neg hfetches] at hstops
  obtain ⟨_, -, -, hshort⟩ := (hsteps 2 9 _ _ hstops 5).2 (by decide)
  have hunlimited := stops_iff_stopsAfter.mpr ⟨9, hstops⟩
  have hshallow : ∀ operations limit,
      ¬flipTwice.Stops ⟨none, 2⟩ none none operations (.error (.callDepth limit)) := by
    intro operations limit hdeep
    cases (hunlimited.unique hdeep).2
  obtain ⟨-, hdeeper⟩ := hdepth none 2 hshallow 1024 (by decide)
  obtain ⟨_, -, hforever⟩ := hendless 1 (not_stopsAfter_flipForever 1 none) 1000000
  refine ⟨⟨metadata, hstops, ?_, ⟨_, hshort⟩, (hdeeper _ _).mpr hunlimited⟩, ?_, ⟨_, hforever⟩⟩
  · exact (hsteps 2 9 _ _ hstops 9).1 le_rfl
  · exact fun start operations last => hframes ⟨none, 2⟩ start operations last (by decide)

end Module

end QuantumIR
