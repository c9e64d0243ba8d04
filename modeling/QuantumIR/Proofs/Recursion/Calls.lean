import QuantumIR.Proofs.Execution.Limits
import QuantumIR.Proofs.Execution.Registers
import QuantumIR.Proofs.Recursion.Unwinding

/-!
What lies between a call and its return. The frames below a call wait for it: they stay as they are
until the body of the called function returns, and then the value comes into the register that the
call names, if there are both a value and a name.
-/

namespace QuantumIR

open Verification

namespace Frame

variable {caller after : Frame} {result : Option String} {returned : Option Datum}

/-- A frame that goes on after a call. It stands where it stood, and at most the register that the
call names has changed: it holds what was returned, if there are both. -/
structure GoesOn (caller : Frame) (result : Option String) (returned : Option Datum)
    (after : Frame) : Prop where
  place : after.function = caller.function ∧ after.block = caller.block ∧
    after.rest = caller.rest ∧ after.returnTo = caller.returnTo
  others : ∀ name, result ≠ some name → after.registers.get? name = caller.registers.get? name
  bound : ∀ name datum, result = some name → returned = some datum →
    after.registers.get? name = some datum
  unbound : result = none ∨ returned = none → after.registers = caller.registers

theorem goesOn_bindResult (caller : Frame) (result : Option String) (returned : Option Datum) :
    caller.GoesOn result returned (caller.bindResult result returned) := by
  cases result with
  | none => exact ⟨⟨rfl, rfl, rfl, rfl⟩, fun _ _ => rfl, fun _ _ h => (nomatch h), fun _ => rfl⟩
  | some key =>
    cases returned with
    | none =>
      exact ⟨⟨rfl, rfl, rfl, rfl⟩, fun _ _ => rfl, fun _ _ _ h => (nomatch h), fun _ => rfl⟩
    | some datum =>
      have hget : ∀ name, (caller.bind key datum).registers.get? name =
          if key = name then some datum else caller.registers.get? name :=
        fun name => Bindings.get?_set key name datum caller.registers
      refine ⟨⟨rfl, rfl, rfl, rfl⟩, ?_, ?_, ?_⟩
      · intro name hname
        exact (hget name).trans (if_neg fun heq => hname (congrArg some heq))
      · intro name other hname hother
        rw [← Option.some.inj hname, ← hother]
        exact (hget key).trans (if_pos rfl)
      · rintro (h | h) <;> cases h

end Frame

namespace Machine

variable {module : Module} {limits : Limits} {frame base : Frame} {callers below : List Frame}
  {state : RunState} {machine next : Machine} {result : Option String}

/-- Whether some frames wait for a call: that of the called function lies right over them, and gives
what it returns to the register that the call names. -/
def Awaits (result : Option String) (below : List Frame) (machine : Machine) : Prop :=
  ∃ above base, machine.frames = above ++ base :: below ∧ base.returnTo = result

/-- The called function returns to the frames that wait for it. -/
def ReturnsTo (result : Option String) (below : List Frame) (returned : Option Datum)
    (machine next : Machine) : Prop :=
  ∃ base operand rest, machine.frames = base :: below ∧ base.returnTo = result ∧
    base.rest = .ret operand :: rest ∧ operand.mapM base.operand = .ok returned ∧
    next.frames = leave below result returned

theorem Awaits.push (h : Awaits result below ⟨frame :: callers, state⟩) (entered after : Frame)
    (state' : RunState) (hreturn : after.returnTo = frame.returnTo) :
    Awaits result below ⟨entered :: after :: callers, state'⟩ := by
  obtain ⟨above, base, hframes, hbase⟩ := h
  cases above with
  | nil =>
    cases hframes
    exact ⟨[entered], after, rfl, hreturn.trans hbase⟩
  | cons top above =>
    cases hframes
    exact ⟨entered :: after :: above, base, rfl, hbase⟩

theorem Awaits.replace (h : Awaits result below ⟨frame :: callers, state⟩) {after : Frame}
    (hreturn : after.returnTo = frame.returnTo) (state' : RunState) :
    Awaits result below ⟨after :: callers, state'⟩ := by
  obtain ⟨above, base, hframes, hbase⟩ := h
  cases above with
  | nil =>
    cases hframes
    exact ⟨[], after, rfl, hreturn.trans hbase⟩
  | cons top above =>
    cases hframes
    exact ⟨after :: above, base, rfl, hbase⟩

/-- Frames wait until the called function returns to them. -/
theorem Steps.awaits (h : machine.Awaits result below) {call : Option CatalogCall}
    (hsteps : Steps module limits machine call next) :
    next.Awaits result below ∨
      call = none ∧ ∃ returned, machine.ReturnsTo result below returned next := by
  cases hsteps with
  | @execute frame callers state ticked instruction rest _ _ hrest _ hexecutes =>
    have hreplace : ∀ after : Frame, after.returnTo = frame.returnTo → ∀ state',
        Awaits result below ⟨after :: callers, state'⟩ :=
      fun after hreturn => h.replace hreturn
    cases hexecutes with
    | compute =>
      refine Or.inl (hreplace _ ?_ _)
      rfl
    | jump _ hjump =>
      obtain ⟨block, -, rfl⟩ := jump_eq_ok_iff.mp hjump
      refine Or.inl (hreplace _ ?_ _)
      rfl
    | enter => exact Or.inl (h.push _ _ _ rfl)
    | perform =>
      refine Or.inl (hreplace _ ?_ _)
      exact Frame.returnTo_bindResult _ _ _
    | @leave operand returned hreturned =>
      obtain ⟨above, base, hframes, hbase⟩ := h
      rcases above with _ | ⟨top, _ | ⟨second, above⟩⟩
      · cases hframes
        refine Or.inr ⟨rfl, returned, frame, operand, rest, rfl, hbase, hrest, hreturned, ?_⟩
        rw [← hbase]
      · cases hframes
        exact Or.inl ⟨[], _, rfl, (Frame.returnTo_bindResult _ _ _).trans hbase⟩
      · cases hframes
        exact Or.inl ⟨_ :: above, base, rfl, hbase⟩

/-- Frames wait for a call while so many instructions are executed. With the next one the called
function returns, and the first of the frames goes on. -/
def ReturnsAfter (module : Module) (limits : Limits) (result : Option String) (caller : Frame)
    (callers : List Frame) (start : Machine) (count : Nat) : Prop :=
  (∀ before ≤ count, ∀ operations machine,
    ReachesIn module limits before start operations machine →
      machine.Awaits result (caller :: callers)) ∧
  ∃ operations last next returned after, ReachesIn module limits count start operations last ∧
    Steps module limits last none next ∧ last.ReturnsTo result (caller :: callers) returned next ∧
    next.frames = after :: callers ∧ caller.GoesOn result returned after

/-- Frames wait for a call for ever, or until the called function returns. -/
theorem awaits_or_returnsAfter {start : Machine} {caller : Frame}
    (hstart : start.Awaits result (caller :: callers)) :
    (∀ count operations machine, ReachesIn module limits count start operations machine →
      machine.Awaits result (caller :: callers)) ∨
    ∃ count, ReturnsAfter module limits result caller callers start count := by
  classical
  by_cases hends : ∃ count operations machine,
      ReachesIn module limits count start operations machine ∧
        ¬machine.Awaits result (caller :: callers)
  · -- The first number of instructions after which the frames do not wait any more.
    obtain ⟨operations, next, hreaches, hnot⟩ := Nat.find_spec hends
    have hbefore := fun count (hless : count < Nat.find hends) => Nat.find_min hends hless
    generalize Nat.find hends = first at hreaches hbefore
    cases first with
    | zero =>
      cases hreaches
      exact absurd hstart hnot
    | succ count =>
      have hwaits : ∀ before ≤ count, ∀ operations machine,
          ReachesIn module limits before start operations machine →
            machine.Awaits result (caller :: callers) := by
        intro before hle operations machine hmachine
        by_contra hawaits
        exact hbefore before (Nat.lt_succ_of_le hle) ⟨operations, machine, hmachine, hawaits⟩
      obtain ⟨dispatched, rest, last, hlast, hstep, rfl⟩ :=
        hreaches.exists_after (Nat.le_succ count)
      rw [Nat.add_sub_cancel_left] at hstep
      obtain ⟨call, hsteps⟩ : ∃ call, Steps module limits last call next := by
        cases hstep with
        | step hfirst hrest =>
          cases hrest
          obtain ⟨call, hsteps, -⟩ := step_eq_ok_iff.mp hfirst
          exact ⟨call, hsteps⟩
      rcases hsteps.awaits (hwaits count le_rfl _ _ hlast) with hawaits | ⟨rfl, returned, hreturns⟩
      · exact absurd hawaits hnot
      · have hframes : next.frames = caller.bindResult result returned :: callers := by
          obtain ⟨_, _, _, -, -, -, -, hleave⟩ := hreturns
          exact hleave
        exact Or.inr ⟨count, hwaits, dispatched, last, next, returned, _, hlast, hsteps, hreturns,
          hframes, Frame.goesOn_bindResult _ _ _⟩
  · left
    intro count operations machine hreaches
    by_contra hawaits
    exact hends ⟨count, operations, machine, hreaches, hawaits⟩

end Machine

namespace Module

open Machine

variable {module : Module} {limits : Limits}

/-- What a step does that calls a defined function. -/
theorem awaits_of_call {frame : Frame} {callers : List Frame} {state : RunState}
    {operation : Option Operation} {next : Machine} {result : Option String} {ret : Ty}
    {callee : String} {operands : List Operand} {rest : List Instruction} {function : Function}
    (hrest : frame.rest = .call result ret callee operands :: rest)
    (hfunction : module.definition? callee = some function)
    (hstep : step module limits frame callers state = .ok (operation, next)) :
    operation = none ∧ (∃ args, operands.mapM frame.operand = .ok args ∧
      next.frames = .enter function args result :: { frame with rest } :: callers) ∧
    next.Awaits result ({ frame with rest } :: callers) := by
  obtain ⟨call, hsteps, rfl⟩ := step_eq_ok_iff.mp hstep
  cases hsteps with
  | execute hrest' _ hexecutes =>
    cases hrest.symm.trans hrest'
    cases hexecutes with
    | compute hcomputes => cases hcomputes
    | jump hgoes _ => cases hgoes
    | perform _ hnone _ _ => cases hfunction.symm.trans hnone
    | enter hargs hfunction' _ =>
      cases hfunction.symm.trans hfunction'
      exact ⟨rfl, ⟨_, hargs, rfl⟩, [], _, rfl, rfl⟩

/-- The stack of frames does what recursion does. Whatever observes an evaluation, it sees the same
operations and the same outcome, or the evaluation never ends, whether the machine runs or the
bodies of functions are run one within the other, each in a frame that holds the arguments and
nothing else. From a call of a defined function on, the caller and all frames below it stay as they
are until the matching return, and then the caller goes on where it stood: at most the register that
the call names has changed, and only if there is a value for it. -/
theorem evaluate?_eq_recursively (module : Module) (limits : Limits) :
    (∀ (σ : Type) (observer : Observer σ) (entryPoint : Option String)
      (stream : Option (List Bool)) (seen : σ),
      module.evaluate? limits observer entryPoint stream seen =
        (module.evaluateRecursively limits observer entryPoint stream).run seen) ∧
    (∀ function args returnTo name datum,
      (Frame.enter function args returnTo).registers.get? name = some datum →
        (name, datum) ∈ Frame.arguments function args) ∧
    ∀ frame callers state operation next result ret callee operands rest function,
      frame.rest = .call result ret callee operands :: rest →
      module.definition? callee = some function →
      step module limits frame callers state = .ok (operation, next) →
        operation = none ∧
        (∃ args, operands.mapM frame.operand = .ok args ∧
          next.frames = .enter function args result :: { frame with rest } :: callers) ∧
        ((∀ count operations machine, ReachesIn module limits count next operations machine →
            machine.Awaits result ({ frame with rest } :: callers)) ∨
          ∃ count, ReturnsAfter module limits result { frame with rest } callers next count) := by
  refine ⟨?_, ?_, ?_⟩
  · exact fun σ => evaluate?_eq_run module limits
  · exact fun function args returnTo name datum => Frame.mem_arguments_of_enter
  · intro frame callers state operation next result ret callee operands rest function hrest
      hfunction hstep
    obtain ⟨hoperation, hentered, hawaits⟩ := awaits_of_call hrest hfunction hstep
    exact ⟨hoperation, hentered, awaits_or_returnsAfter hawaits⟩

/-- The frame of the entry point of `flipTwice`, with what is left of its first block. -/
def flipTwiceFrame (rest : List Instruction) : Frame where
  function := flipTwice.functions.head!
  block := flipTwice.functions.head!.blocks.head!
  rest := rest
  registers := []
  returnTo := none

theorem recursively_flipTwice : ∃ metadata flip call state next,
    (flipTwice.evaluateRecursively .standard .trace none none).run #[] =
      some (.ok metadata, #[.single .x 0, .single .x 0]) ∧
    call = .call (some "again") .bool "flip" [.qubit 0] ∧
    flipTwice.definition? "flip" = some flip ∧
    step flipTwice .standard (flipTwiceFrame [call, .branchIf (.reg "again") "more" "end"]) []
      state = .ok (none, next) ∧
    ∃ count, ReturnsAfter flipTwice .standard (some "again")
      (flipTwiceFrame [.branchIf (.reg "again") "more" "end"]) [] next count := by
  obtain ⟨hrecursive, -, hcalls⟩ := evaluate?_eq_recursively flipTwice .standard
  have hprepare : flipTwice.prepare none none =
      .ok (.start flipTwice.functions.head! none) :=
    prepare_of_verify rfl rfl (by decide) none
  have hreaches : ∃ operations last metadata, Reaches flipTwice .standard
      (.start flipTwice.functions.head! none) operations last ∧
      last.outcome? flipTwice .standard = some (.ok metadata) ∧
      operations = [.single .x 0, .single .x 0] :=
    ⟨_, _, _, .step rfl (.step rfl (.step rfl (.step rfl (.step rfl (.step rfl (.step rfl
      (.step rfl (.step rfl (.refl _))))))))), rfl, rfl⟩
  obtain ⟨_, last, metadata, hreaches, hlast, rfl⟩ := hreaches
  have hruns := stops_of_reaches hprepare hreaches hlast _ .trace #[]
  rw [hrecursive] at hruns
  obtain ⟨next, hstep, hback⟩ : ∃ next, step flipTwice .standard
      (flipTwiceFrame [.call (some "again") .bool "flip" [.qubit 0],
        .branchIf (.reg "again") "more" "end"]) [] (.start flipTwice.functions.head! none) =
          .ok (none, next) ∧
      ∃ operations last, ReachesIn flipTwice .standard 2 next operations last ∧
        last.frames.length = 1 :=
    ⟨_, rfl, _, _, .step rfl (.step rfl (.refl _)), rfl⟩
  obtain ⟨-, -, hforever | hreturns⟩ := hcalls _ _ _ _ _ _ _ _ _ _ _ rfl rfl hstep
  · obtain ⟨operations, last, hlast, hlength⟩ := hback
    obtain ⟨above, base, hframes, -⟩ := hforever 2 operations last hlast
    rw [hframes, List.length_append] at hlength
    simp at hlength
  · exact ⟨metadata, _, _, _, next, hruns, rfl, rfl, hstep, hreturns⟩

end Module

end QuantumIR
