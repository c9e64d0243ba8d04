import QuantumIR.Proofs.Execution.Rules
import QuantumIR.Proofs.Recursion.Evaluator

/-!
Running a stack of frames is running the body of each of them, from the first one to the last, with
the value that the one before has returned.
-/

namespace QuantumIR

variable {σ α β : Type}

namespace Watched

theorem ok_bind (a : α) (next : α → Watched σ β) :
    ofExcept (.ok a : Except EvalError α) >>= next = next a := rfl

theorem ofExcept_bind (first : Except EvalError α) (next : α → Except EvalError β) :
    (ofExcept (first >>= next) : Watched σ β) = ofExcept first >>= fun a => ofExcept (next a) := by
  cases first <;> rfl

theorem handOn_none_bind (observer : Observer σ) (next : Unit → Watched σ β) :
    handOn observer none >>= next = next () := rfl

/-- A sequel fails with its first part, or begins where that part ends. -/
theorem cases_of_bind {first : Watched σ α} {next : α → Watched σ β} {seen : σ}
    {outcome : Except EvalError β × σ} (h : (first >>= next).run seen = some outcome) :
    (∃ error seen', first.run seen = some (.error error, seen') ∧ outcome = (.error error, seen')) ∨
      ∃ a seen', first.run seen = some (.ok a, seen') ∧ (next a).run seen' = some outcome := by
  change (first.run seen).bind _ = some outcome at h
  obtain ⟨⟨error | a, seen'⟩, hfirst, hnext⟩ := Option.bind_eq_some_iff.mp h
  · cases hnext
    exact Or.inl ⟨error, seen', hfirst, rfl⟩
  · exact Or.inr ⟨a, seen', hfirst, hnext⟩

/-- A turn of a loop, and then the loop again or its result. -/
theorem loop_eq (turn : α → Watched σ (α ⊕ β)) (a : α) :
    loop turn a = turn a >>= Sum.elim (loop turn) pure := by
  funext seen
  change (iterate? (loopTurn turn) (a, seen)).join = ((turn a).run seen).bind _
  rw [iterate?_eq, loopTurn]
  obtain _ | ⟨error | next | b, seen⟩ := (turn a).run seen <;> rfl

/-- What every turn hands on from its end to its start holds of a loop that ends. -/
theorem of_loop {turn : α → Watched σ (α ⊕ β)} {P : α → σ → Except EvalError β × σ → Prop}
    (h : ∀ a seen result seen', (turn a).run seen = some (result, seen') →
      match result with
      | .error error => P a seen (.error error, seen')
      | .ok (.inl next) => ∀ outcome, P next seen' outcome → P a seen outcome
      | .ok (.inr b) => P a seen (.ok b, seen'))
    {a : α} {seen : σ} {outcome : Except EvalError β × σ}
    (hloop : (loop turn a).run seen = some outcome) : P a seen outcome := by
  replace hloop : StopsWith (loopTurn turn) (a, seen) (some outcome) :=
    iterate?_eq_some_iff.mp (Option.join_eq_some_iff.mp hloop)
  generalize hplace : (a, seen) = place at hloop
  generalize hresult : some outcome = result at hloop
  induction hloop generalizing a seen with
  | stop hturn =>
    cases hplace
    cases hresult
    rw [loopTurn] at hturn
    split at hturn <;> cases hturn
    all_goals
      rename_i hrun
      exact h _ _ _ _ hrun
  | next hturn hrest ih =>
    cases hplace
    rw [loopTurn] at hturn
    split at hturn <;> cases hturn
    rename_i hrun
    exact h _ _ _ _ hrun outcome (ih rfl hresult)

end Watched

namespace Frame

/-- A frame with another place to return to. -/
def returningTo (returnTo : Option String) (frame : Frame) : Frame := { frame with returnTo }

variable (frame : Frame) (returnTo : Option String)

theorem returningTo_bindResult (name : Option String) (datum : Option Datum) :
    (frame.bindResult name datum).returningTo returnTo =
      (frame.returningTo returnTo).bindResult name datum := by
  cases name <;> cases datum <;> rfl

theorem jump_returningTo (label : String) :
    (frame.returningTo returnTo).jump label = Frame.returningTo returnTo <$> frame.jump label := by
  have hfunction : (frame.returningTo returnTo).function = frame.function := rfl
  rw [jump, jump, hfunction]
  cases frame.function.block? label <;> rfl

end Frame

namespace Machine

variable {module : Module} {limits : Limits}

/-- An instruction that stays in its function does not touch the place to return to. -/
theorem executeLocal_returningTo (frame : Frame) (returnTo : Option String)
    (instruction : Instruction) :
    executeLocal (frame.returningTo returnTo) instruction =
      Frame.returningTo returnTo <$> executeLocal frame instruction := by
  have hdatum : (frame.returningTo returnTo).datum = frame.datum := rfl
  have hword : (frame.returningTo returnTo).word = frame.word := rfl
  have hcondition : (frame.returningTo returnTo).condition = frame.condition := rfl
  cases instruction with
  | branch target => exact frame.jump_returningTo returnTo target
  | branchIf condition onTrue onFalse =>
    simp only [executeLocal, hcondition, Frame.jump_returningTo, map_bind]
  | call | ret => rfl
  | _ =>
    simp only [executeLocal, hdatum, hword, hcondition, map_bind, map_pure]
    rfl

end Machine

namespace Recursion

open Machine Watched

variable {module : Module} {limits : Limits} {observer : Observer σ}

variable (limits) in
/-- What an action of the first body makes of a stack of frames. -/
def Action.onStack (callers : List Frame) (returnTo : Option String) :
    Action → Except EvalError (Option Operation × Machine)
  | goOn operation frame state => .ok (operation, ⟨frame.returningTo returnTo :: callers, state⟩)
  | call function args result frame state =>
    if callers.length + 1 < limits.depth then
      .ok (none, ⟨.enter function args result :: frame.returningTo returnTo :: callers, state⟩)
    else .error (.callDepth limits.depth)
  | giveBack returned state => .ok (none, ⟨leave callers returnTo returned, state⟩)

/-- A step of a machine is the action of the first body. -/
theorem step_eq_act (frame : Frame) (callers : List Frame) (state : RunState) :
    step module limits frame callers state =
      act module limits frame state >>= Action.onStack limits callers frame.returnTo := by
  rw [step, act]
  cases frame.rest with
  | nil => rfl
  | cons instruction rest =>
    generalize halone : ({ frame with rest, returnTo := none } : Frame) = alone
    have hframe : { frame with rest } = alone.returningTo frame.returnTo := by
      rw [← halone]
      rfl
    have hoperand : (alone.returningTo frame.returnTo).operand = alone.operand := rfl
    dsimp only
    rw [hframe, halone, bind_assoc]
    apply bind_congr
    intro state
    cases instruction with
    | call result ret callee operands =>
      dsimp only [execute]
      rw [hoperand, bind_assoc]
      apply bind_congr
      intro args
      rw [Machine.call.eq_def]
      cases module.definition? callee with
      | some function => rfl
      | none =>
        cases Intrinsic.ofName? callee with
        | none => rfl
        | some intrinsic =>
          dsimp only
          rw [bind_assoc]
          apply bind_congr
          rintro ⟨effect, state⟩
          rw [← Frame.returningTo_bindResult]
          rfl
    | ret operand =>
      dsimp only [execute]
      rw [hoperand, bind_assoc]
      rfl
    | _ =>
      dsimp only [execute]
      rw [executeLocal_returningTo, bind_map_left, bind_assoc]
      rfl

variable (module limits observer) in
/-- What a body gives after an action. -/
def follow (levels : Nat) : Action → Watched σ (Option Datum × RunState)
  | .goOn operation frame state => do
    handOn observer operation
    body module limits observer levels frame state
  | .call function args result frame state => do
    let (returned, state) ← callsWithin module limits observer levels function args state
    body module limits observer levels (frame.bindResult result returned) state
  | .giveBack returned state => return (returned, state)

/-- A body does what its next instruction comes to. -/
theorem body_eq (levels : Nat) (frame : Frame) (state : RunState) :
    body module limits observer levels frame state =
      ofExcept (act module limits frame state) >>= follow module limits observer levels := by
  rw [body, loop_eq, proceed, bind_assoc]
  apply bind_congr
  intro action
  cases action with
  | goOn operation frame state => rfl
  | giveBack returned state => rfl
  | call function args result frame state => exact bind_assoc _ _ _

/-- It does not matter for a body where it returns to. -/
theorem body_returningTo (levels : Nat) (frame : Frame) (returnTo : Option String)
    (state : RunState) : body module limits observer levels (frame.returningTo returnTo) state =
      body module limits observer levels frame state := by
  have hact : act module limits (frame.returningTo returnTo) state =
      act module limits frame state := rfl
  rw [body_eq, hact, ← body_eq]

/-- Over a stack of frames there is room for one more call, or none. -/
theorem callsWithin_eq (depth : Nat) (function : Function) (args : List Datum)
    (state : RunState) : callsWithin module limits observer (limits.depth - depth) function args
      state = if depth < limits.depth then
        body module limits observer (limits.depth - (depth + 1)) (.enter function args none) state
      else throw (.callDepth limits.depth) := by
  split
  · next hdepth =>
    have hlevels : limits.depth - depth = limits.depth - (depth + 1) + 1 := by omega
    rw [hlevels]
    rfl
  · next hdepth =>
    rw [Nat.sub_eq_zero_of_le (Nat.le_of_not_lt hdepth)]
    rfl

variable (module limits observer) in
/-- Runs the bodies of frames one after the other. The first one gets what was returned to it. -/
def resume : List Frame → Option String → Option Datum → RunState → Watched σ RunMetadata
  | [], _, _, state => do
    modify (observer.finish state.metadata)
    return state.metadata
  | caller :: others, returnTo, returned, state => do
    let (returned, state) ← body module limits observer (limits.depth - (others.length + 1))
      (caller.bindResult returnTo returned) state
    resume others caller.returnTo returned state

variable (module limits observer) in
/-- Runs the bodies of all frames of a machine one after the other. -/
def unwind : Machine → Watched σ RunMetadata
  | ⟨[], state⟩ => resume module limits observer [] none none state
  | ⟨frame :: callers, state⟩ => do
    let (returned, state) ← body module limits observer (limits.depth - (callers.length + 1)) frame
      state
    resume module limits observer callers frame.returnTo returned state

theorem resume_eq_unwind (callers : List Frame) (returnTo : Option String)
    (returned : Option Datum) (state : RunState) :
    resume module limits observer callers returnTo returned state =
      unwind module limits observer ⟨leave callers returnTo returned, state⟩ := by
  cases callers with
  | nil => rfl
  | cons caller others => rw [resume, leave, unwind, Frame.returnTo_bindResult]

/-- Running the bodies of all frames begins with a step of the machine. -/
theorem unwind_cons (frame : Frame) (callers : List Frame) (state : RunState) :
    unwind module limits observer ⟨frame :: callers, state⟩ = (do
      let (operation, next) ← ofExcept (step module limits frame callers state)
      Watched.handOn observer operation
      unwind module limits observer next) := by
  rw [unwind, body_eq, step_eq_act, ofExcept_bind, bind_assoc, bind_assoc]
  apply bind_congr
  intro action
  cases action with
  | goOn operation after state' =>
    rw [Action.onStack, Watched.ok_bind, follow, bind_assoc]
    apply bind_congr
    intro _
    rw [unwind, body_returningTo]
    rfl
  | call function args result after state' =>
    rw [Action.onStack, follow, callsWithin_eq]
    split
    · have henter : Frame.enter function args result =
        (Frame.enter function args none).returningTo result := rfl
      rw [Watched.ok_bind]
      dsimp only
      rw [Watched.handOn_none_bind, unwind, henter, body_returningTo, bind_assoc]
      apply bind_congr
      rintro ⟨returned, state⟩
      dsimp only
      rw [resume, ← Frame.returningTo_bindResult, body_returningTo]
      rfl
    · rfl
  | giveBack returned state' =>
    rw [Action.onStack, Watched.ok_bind, follow, pure_bind]
    dsimp only
    rw [Watched.handOn_none_bind, resume_eq_unwind]

/-- Running the bodies of all frames takes a turn as the machine does. -/
theorem run_unwind (machine : Machine) (seen : σ) :
    (unwind module limits observer machine).run seen =
      Sum.elim (fun place => (unwind module limits observer place.1).run place.2) some
        (turn module limits observer (machine, seen)) := by
  obtain ⟨_ | ⟨frame, callers⟩, state⟩ := machine
  · rfl
  · rw [unwind_cons, turn]
    cases step module limits frame callers state <;> rfl

/-- What a machine stops with is what running the bodies of its frames gives. -/
theorem unwind_of_stopsWith {place : Machine × σ} {result : Except EvalError RunMetadata × σ}
    (h : StopsWith (turn module limits observer) place result) :
    (unwind module limits observer place.1).run place.2 = some result := by
  induction h with
  | stop hturn =>
    rw [run_unwind, hturn]
    rfl
  | next hturn _ ih =>
    rw [run_unwind, hturn]
    exact ih

/-- A machine stops with what comes after the body of its first frame: with the failure of that
body, or with whatever the machine stops with after the return. -/
def Resumes (module : Module) (limits : Limits) (observer : Observer σ)
    (place : Machine × σ) (callers : List Frame) (returnTo : Option String) :
    Except EvalError (Option Datum × RunState) × σ → Prop
  | (.error error, seen) => StopsWith (turn module limits observer) place (.error error, seen)
  | (.ok (returned, state), seen) =>
    let after : Machine := ⟨leave callers returnTo returned, state⟩
    ∀ result, StopsWith (turn module limits observer) (after, seen) result →
      StopsWith (turn module limits observer) place result

variable {frame : Frame} {callers : List Frame} {state : RunState} {seen : σ}
  {place place' : Machine × σ} {returnTo : Option String}
  {outcome : Except EvalError (Option Datum × RunState) × σ}

theorem Resumes.mono (h : Resumes module limits observer place' callers returnTo outcome)
    (hplace : ∀ result, StopsWith (turn module limits observer) place' result →
      StopsWith (turn module limits observer) place result) :
    Resumes module limits observer place callers returnTo outcome := by
  obtain ⟨error | ⟨returned, state⟩, seen⟩ := outcome
  · exact hplace _ h
  · exact fun result hresult => hplace _ (h result hresult)

/-- Calls over a stack of frames fail where the stack is too high, and end as the machine does that
enters the called function. -/
def CallsResume (module : Module) (limits : Limits) (observer : Observer σ) (callers : List Frame)
    (calls : Calls σ) : Prop :=
  ∀ (function : Function) (args : List Datum) (result : Option String) (waiting : Frame)
    (state : RunState) (seen : σ) (outcome : Except EvalError (Option Datum × RunState) × σ),
    (calls function args state).run seen = some outcome →
      if callers.length + 1 < limits.depth then
        Resumes module limits observer (⟨.enter function args result :: waiting :: callers, state⟩,
          seen) (waiting :: callers) result outcome
      else outcome = (.error (.callDepth limits.depth), seen)

/-- A machine goes on after the loop over what is left of its first frame. -/
theorem resumes_loop {calls : Calls σ} (hcalls : CallsResume module limits observer callers calls)
    (h : (loop (proceed module limits observer calls) (frame, state)).run seen = some outcome)
    (returnTo : Option String) :
    Resumes module limits observer (⟨frame.returningTo returnTo :: callers, state⟩, seen) callers
      returnTo outcome := by
  refine of_loop (P := fun place seen outcome => Resumes module limits observer
    (⟨place.1.returningTo returnTo :: callers, place.2⟩, seen) callers returnTo outcome) ?_ h
  rintro ⟨frame, state⟩ seen ended seen' hrun
  have hstep : step module limits (frame.returningTo returnTo) callers state =
      act module limits frame state >>= Action.onStack limits callers returnTo :=
    step_eq_act (frame.returningTo returnTo) callers state
  rw [proceed] at hrun
  cases haction : act module limits frame state with
  | error error =>
    rw [haction] at hrun hstep
    cases hrun
    apply StopsWith.stop
    rw [turn, hstep]
    rfl
  | ok action =>
    rw [haction, ok_bind] at hrun
    replace hstep : step module limits (frame.returningTo returnTo) callers state =
        Action.onStack limits callers returnTo action := by
      rw [hstep, haction]
      rfl
    have hnext : ∀ {operation next}, Action.onStack limits callers returnTo action =
        .ok (operation, next) → ∀ result,
        StopsWith (turn module limits observer)
          (next, operation.elim seen (observer.apply · seen)) result →
        StopsWith (turn module limits observer)
          (⟨frame.returningTo returnTo :: callers, state⟩, seen) result := by
      intro operation next honStack result hresult
      refine .next ?_ hresult
      rw [turn, hstep, honStack]
    cases action with
    | goOn operation after state' =>
      cases hrun
      exact fun outcome houtcome => houtcome.mono (hnext rfl)
    | giveBack returned state' =>
      cases hrun
      exact hnext rfl
    | call function args result after state' =>
      -- The called function gives back to a stack that is higher by the frame which waits for it.
      rcases cases_of_bind hrun with ⟨error, seen'', hcall, hended⟩ |
        ⟨⟨returned, state''⟩, seen'', hcall, hended⟩
      · cases hended
        have hresumes := hcalls function args result (after.returningTo returnTo) _ _ _ hcall
        split at hresumes
        · next hdepth => exact hnext (if_pos hdepth) _ hresumes
        · next hdepth =>
          cases hresumes
          apply StopsWith.stop
          rw [turn, hstep, Action.onStack, if_neg hdepth]
      · cases hended
        have hresumes := hcalls function args result (after.returningTo returnTo) _ _ _ hcall
        split at hresumes
        · next hdepth =>
          intro outcome houtcome
          refine houtcome.mono fun final hfinal => hnext (if_pos hdepth) _ (hresumes final ?_)
          rwa [Frame.returningTo_bindResult] at hfinal
        · cases hresumes

theorem callsResume_callsWithin (levels : Nat) (callers : List Frame)
    (hlevels : limits.depth - (callers.length + 1) = levels) :
    CallsResume module limits observer callers (callsWithin module limits observer levels) := by
  -- A frame more on the stack is a call less within the body, so the two numbers keep their sum.
  induction levels generalizing callers with
  | zero =>
    intro function args result waiting state seen outcome h
    rw [if_neg (by omega)]
    cases h
    rfl
  | succ levels ih =>
    intro function args result waiting state seen outcome h
    rw [if_pos (by omega)]
    exact resumes_loop (ih (waiting :: callers) (by rw [List.length_cons]; omega)) h result

/-- A machine goes on after the body of its first frame. -/
theorem resumes_body (h : (body module limits observer (limits.depth - (callers.length + 1)) frame
      state).run seen = some outcome) (returnTo : Option String) :
    Resumes module limits observer (⟨frame.returningTo returnTo :: callers, state⟩, seen) callers
      returnTo outcome :=
  resumes_loop (callsResume_callsWithin _ callers rfl) h returnTo

/-- What running the bodies of a machine's frames gives is what the machine stops with. -/
theorem stopsWith_of_resume {callers : List Frame} {returned : Option Datum}
    {result : Except EvalError RunMetadata × σ}
    (h : (resume module limits observer callers returnTo returned state).run seen = some result) :
    StopsWith (turn module limits observer) (⟨leave callers returnTo returned, state⟩, seen)
      result := by
  induction callers generalizing returnTo returned state seen with
  | nil =>
    cases h
    exact .stop rfl
  | cons caller others ih =>
    rcases cases_of_bind h with ⟨error, seen', hbody, rfl⟩ |
      ⟨⟨returned', state'⟩, seen', hbody, hrest⟩
    · exact resumes_body hbody (caller.bindResult returnTo returned).returnTo
    · have hafter := resumes_body hbody (caller.bindResult returnTo returned).returnTo
      refine hafter result ?_
      rw [Frame.returnTo_bindResult]
      exact ih hrest

theorem stopsWith_of_unwind {machine : Machine} {result : Except EvalError RunMetadata × σ}
    (h : (unwind module limits observer machine).run seen = some result) :
    StopsWith (turn module limits observer) (machine, seen) result := by
  obtain ⟨_ | ⟨frame, callers⟩, state⟩ := machine
  · have hreturn : (resume module limits observer [] none none state).run seen = some result := h
    exact stopsWith_of_resume hreturn
  · rcases cases_of_bind h with ⟨error, seen', hbody, rfl⟩ |
      ⟨⟨returned, state'⟩, seen', hbody, hrest⟩
    · exact resumes_body hbody frame.returnTo
    · have hafter := resumes_body hbody frame.returnTo
      exact hafter result (stopsWith_of_resume hrest)

theorem run_eq_unwind (machine : Machine) (seen : σ) :
    machine.run module limits observer seen = (unwind module limits observer machine).run seen := by
  apply Option.ext
  intro result
  rw [Machine.run, iterate?_eq_some_iff]
  exact ⟨unwind_of_stopsWith, stopsWith_of_unwind⟩

end Recursion

namespace Module

theorem evaluate?_eq_run (module : Module) (limits : Limits) (observer : Observer σ)
    (entryPoint : Option String) (stream : Option (List Bool)) (seen : σ) :
    module.evaluate? limits observer entryPoint stream seen =
      (module.evaluateRecursively limits observer entryPoint stream).run seen := by
  rw [evaluate?, evaluateRecursively, prepare]
  cases module.resolveEntry entryPoint with
  | error error => rfl
  | ok entry =>
    rw [Watched.ok_bind]
    dsimp only [bind, Except.bind]
    cases module.unsupportedFrom entry.name with
    | cons name names => rfl
    | nil =>
      dsimp only
      exact Recursion.run_eq_unwind _ _

end Module

end QuantumIR
