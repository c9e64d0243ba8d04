import QuantumIR.Proofs.Execution.Reaches
import QuantumIR.Proofs.Verified.Rules

/-!
The rules by which a machine runs. An instruction computes a register, goes on in another block,
enters a function, leaves one, or calls a function of the catalog. A machine makes a step exactly
if one of these rules allows it, so what a step keeps is proved rule by rule.
-/

namespace QuantumIR

open Verification

/-- A call of a function of the catalog, with what a run keeps beside its frames before the call
and after it. -/
structure CatalogCall where
  intrinsic : Intrinsic
  args : List Datum
  before : RunState
  effect : Effect
  after : RunState

namespace Frame

/-- What an instruction puts into a register. -/
inductive Computes (frame : Frame) : Instruction → String → Datum → Prop
  | binary {result : String} {op : BinaryOp} {width : UInt32} {lhs rhs : Value} {a b bits : Nat} :
      frame.word width lhs = .ok a → frame.word width rhs = .ok b →
      Word.binary op width a b = .ok bits →
      Computes frame (.binary result op width lhs rhs) result (.int width bits)
  | compare {result : String} {predicate : Predicate} {width : UInt32} {lhs rhs : Value}
      {a b : Nat} :
      frame.word width lhs = .ok a → frame.word width rhs = .ok b →
      Computes frame (.compare result predicate width lhs rhs) result
        (.bool (Word.compare predicate width a b))
  | convert {result : String} {conversion : Conversion} {source : UInt32} {value : Value}
      {target : UInt32} {a bits : Nat} :
      frame.word source value = .ok a → Word.convert conversion source a target = .ok bits →
      Computes frame (.convert result conversion source value target) result (.int target bits)
  | select {result : String} {condition : Value} {ty : Ty} {onTrue onFalse : Value} {truth : Bool}
      {datum : Datum} :
      frame.condition condition = .ok truth →
      frame.datum ty (if truth then onTrue else onFalse) = .ok datum →
      Computes frame (.select result condition ty onTrue onFalse) result datum

/-- The label at which an instruction goes on. -/
inductive Goes (frame : Frame) : Instruction → String → Prop
  | branch {target : String} : Goes frame (.branch target) target
  | branchIf {condition : Value} {onTrue onFalse : String} {truth : Bool} :
      frame.condition condition = .ok truth →
      Goes frame (.branchIf condition onTrue onFalse) (if truth then onTrue else onFalse)

/-- What an instruction brings into a register of its own function, of one that it calls, or of
the one that called its function. -/
inductive Brings (module : Module) (frame : Frame) :
    Instruction → Option CatalogCall → Datum → Prop
  | computed {instruction : Instruction} {call : Option CatalogCall} {name : String}
      {datum : Datum} :
      frame.Computes instruction name datum → Brings module frame instruction call datum
  | passed {result : Option String} {ret : Ty} {callee : String} {operands : List Operand}
      {operand : Operand} {call : Option CatalogCall} {datum : Datum} :
      (module.definition? callee).isSome → operand ∈ operands → frame.operand operand = .ok datum →
      Brings module frame (.call result ret callee operands) call datum
  | returned {operand : Operand} {call : Option CatalogCall} {datum : Datum} :
      frame.operand operand = .ok datum → Brings module frame (.ret (some operand)) call datum
  | given {instruction : Instruction} {call : CatalogCall} {datum : Datum} :
      call.effect.value = some datum → Brings module frame instruction (some call) datum

end Frame

namespace Machine

/-- What an instruction makes of a machine. Only a call of the catalog touches what a run keeps
beside its frames. -/
inductive Executes (module : Module) (limits : Limits) (frame : Frame) (callers : List Frame)
    (state : RunState) : Instruction → Option CatalogCall → Machine → Prop
  | compute {instruction : Instruction} {name : String} {datum : Datum} :
      frame.Computes instruction name datum →
      Executes module limits frame callers state instruction none
        ⟨frame.bind name datum :: callers, state⟩
  | jump {instruction : Instruction} {label : String} {next : Frame} :
      frame.Goes instruction label → frame.jump label = .ok next →
      Executes module limits frame callers state instruction none ⟨next :: callers, state⟩
  | enter {result : Option String} {ret : Ty} {callee : String} {operands : List Operand}
      {args : List Datum} {function : Function} :
      operands.mapM frame.operand = .ok args → module.definition? callee = some function →
      callers.length + 1 < limits.depth →
      Executes module limits frame callers state (.call result ret callee operands) none
        ⟨.enter function args result :: frame :: callers, state⟩
  | leave {operand : Option Operand} {datum : Option Datum} :
      operand.mapM frame.operand = .ok datum →
      Executes module limits frame callers state (.ret operand) none
        ⟨leave callers frame.returnTo datum, state⟩
  | perform {result : Option String} {ret : Ty} {callee : String} {operands : List Operand}
      {args : List Datum} {intrinsic : Intrinsic} {effect : Effect} {after : RunState} :
      operands.mapM frame.operand = .ok args → module.definition? callee = none →
      Intrinsic.ofName? callee = some intrinsic →
      Run.perform module intrinsic args state = .ok (effect, after) →
      Executes module limits frame callers state (.call result ret callee operands)
        (some ⟨intrinsic, args, state, effect, after⟩)
        ⟨frame.bindResult result effect.value :: callers, after⟩

/-- One step of a machine, with the call of the catalog that it makes, if it makes one. -/
inductive Steps (module : Module) (limits : Limits) :
    Machine → Option CatalogCall → Machine → Prop
  | execute {frame : Frame} {callers : List Frame} {state ticked : RunState}
      {instruction : Instruction} {rest : List Instruction} {call : Option CatalogCall}
      {next : Machine} :
      frame.rest = instruction :: rest → tick limits state = .ok ticked →
      Executes module limits { frame with rest } callers ticked instruction call next →
      Steps module limits ⟨frame :: callers, state⟩ call next

/-- The operation that a step hands on. -/
def handedOn (call : Option CatalogCall) : Option Operation :=
  call.bind fun made => made.effect.operation

variable {module : Module} {limits : Limits} {frame : Frame} {callers : List Frame}
  {state : RunState} {instruction : Instruction} {operation : Option Operation} {next : Machine}

/-- A jump changes the block and what is left of it, and nothing else. -/
theorem jump_eq_ok_iff {label : String} {after : Frame} : frame.jump label = .ok after ↔
    ∃ block, frame.function.block? label = some block ∧
      after = { frame with block, rest := block.instructions } := by
  rw [Frame.jump]
  cases frame.function.block? label with
  | none => simp
  | some block => simp [eq_comm]

theorem ok_bind_iff {α β : Type} {first : Except EvalError α} {after : α → β} {b : β} :
    (do return after (← first)) = (.ok b : Except EvalError β) ↔
      ∃ a, first = .ok a ∧ after a = b := by
  rw [bind_eq_ok]
  simp only [pure, Except.pure, Except.ok.injEq]

/-- An instruction that is no call and no return computes a register or goes on in a block. -/
theorem exists_executes_of_executeLocal {after : Frame}
    (h : executeLocal frame instruction = .ok after) (hcall : ∀ result ret callee operands,
      instruction ≠ .call result ret callee operands) (hret : ∀ operand, instruction ≠ .ret operand) :
    Executes module limits frame callers state instruction none ⟨after :: callers, state⟩ := by
  cases instruction with
  | binary result op width lhs rhs =>
    obtain ⟨a, ha, h⟩ := bind_eq_ok.mp h
    obtain ⟨b, hb, h⟩ := bind_eq_ok.mp h
    obtain ⟨bits, hbits, rfl⟩ := ok_bind_iff.mp h
    exact .compute (.binary ha hb hbits)
  | compare result predicate width lhs rhs =>
    obtain ⟨a, ha, h⟩ := bind_eq_ok.mp h
    obtain ⟨b, hb, rfl⟩ := ok_bind_iff.mp h
    exact .compute (.compare ha hb)
  | convert result conversion source value target =>
    obtain ⟨a, ha, h⟩ := bind_eq_ok.mp h
    obtain ⟨bits, hbits, rfl⟩ := ok_bind_iff.mp h
    exact .compute (.convert ha hbits)
  | select result condition ty onTrue onFalse =>
    obtain ⟨truth, htruth, h⟩ := bind_eq_ok.mp h
    obtain ⟨datum, hdatum, rfl⟩ := ok_bind_iff.mp h
    exact .compute (.select htruth hdatum)
  | branch target => exact .jump .branch h
  | branchIf condition onTrue onFalse =>
    obtain ⟨truth, htruth, h⟩ := bind_eq_ok.mp h
    exact .jump (.branchIf htruth) h
  | call result ret callee operands => exact absurd rfl (hcall result ret callee operands)
  | ret operand => exact absurd rfl (hret operand)

theorem executeLocal_of_computes {name : String} {datum : Datum}
    (h : frame.Computes instruction name datum) :
    executeLocal frame instruction = .ok (frame.bind name datum) := by
  cases h with
  | binary ha hb hbits =>
    exact bind_eq_ok.mpr ⟨_, ha, bind_eq_ok.mpr ⟨_, hb, ok_bind_iff.mpr ⟨_, hbits, rfl⟩⟩⟩
  | compare ha hb => exact bind_eq_ok.mpr ⟨_, ha, ok_bind_iff.mpr ⟨_, hb, rfl⟩⟩
  | convert ha hbits => exact bind_eq_ok.mpr ⟨_, ha, ok_bind_iff.mpr ⟨_, hbits, rfl⟩⟩
  | select htruth hdatum => exact bind_eq_ok.mpr ⟨_, htruth, ok_bind_iff.mpr ⟨_, hdatum, rfl⟩⟩

theorem executeLocal_of_goes {label : String} (h : frame.Goes instruction label) :
    executeLocal frame instruction = frame.jump label := by
  cases h with
  | branch => rfl
  | branchIf htruth =>
    rw [executeLocal, htruth]
    rfl

theorem exists_executes_of_call {result : Option String} {ret : Ty} {callee : String}
    {operands : List Operand} {args : List Datum} (hargs : operands.mapM frame.operand = .ok args)
    (h : call module limits frame callers state result callee args = .ok (operation, next)) :
    ∃ call, Executes module limits frame callers state (.call result ret callee operands) call next ∧
      operation = handedOn call := by
  rw [call.eq_def] at h
  split at h
  · next hfunction =>
    split at h
    · next hdepth =>
      cases h
      exact ⟨none, .enter hargs hfunction hdepth, rfl⟩
    · cases h
  · next intrinsic hnone hname =>
    obtain ⟨⟨effect, after⟩, hperform, h⟩ := ok_bind_iff.mp h
    cases h
    exact ⟨_, .perform hargs hnone hname hperform, rfl⟩
  · cases h

/-- What is executed is what the rules allow. -/
theorem execute_eq_ok_iff :
    execute module limits frame callers state instruction = .ok (operation, next) ↔
      ∃ call, Executes module limits frame callers state instruction call next ∧
        operation = handedOn call := by
  constructor
  · intro h
    have hlocal : ∀ first : Except EvalError Frame,
        (do return (none, ⟨(← first) :: callers, state⟩)) = Except.ok (operation, next) →
          ∃ after, first = .ok after ∧ operation = none ∧ next = ⟨after :: callers, state⟩ := by
      intro first h
      obtain ⟨after, hafter, h⟩ := ok_bind_iff.mp h
      cases h
      exact ⟨after, hafter, rfl, rfl⟩
    cases instruction with
    | call result ret callee operands =>
      obtain ⟨args, hargs, h⟩ := bind_eq_ok.mp h
      exact exists_executes_of_call hargs h
    | ret operand =>
      obtain ⟨datum, hdatum, h⟩ := ok_bind_iff.mp h
      cases h
      exact ⟨none, .leave hdatum, rfl⟩
    | _ =>
      obtain ⟨after, hafter, rfl, rfl⟩ := hlocal _ h
      exact ⟨none, exists_executes_of_executeLocal hafter (by simp) (by simp), rfl⟩
  · rintro ⟨call, h, rfl⟩
    cases h with
    | compute hcomputes =>
      have hlocal := executeLocal_of_computes hcomputes
      cases hcomputes with
      | _ => exact ok_bind_iff.mpr ⟨_, hlocal, rfl⟩
    | jump hgoes hjump =>
      have hlocal := (executeLocal_of_goes hgoes).trans hjump
      cases hgoes with
      | _ => exact ok_bind_iff.mpr ⟨_, hlocal, rfl⟩
    | enter hargs hfunction hdepth =>
      refine bind_eq_ok.mpr ⟨_, hargs, ?_⟩
      rw [call.eq_def, hfunction]
      exact if_pos hdepth
    | leave hdatum => exact ok_bind_iff.mpr ⟨_, hdatum, rfl⟩
    | perform hargs hnone hname hperform =>
      refine bind_eq_ok.mpr ⟨_, hargs, ?_⟩
      rw [call.eq_def, hnone, hname]
      exact ok_bind_iff.mpr ⟨_, hperform, rfl⟩

/-- A call of a function of the catalog does what the function does. -/
theorem execute_perform {result : Option String} {ret : Ty} {callee : String}
    {operands : List Operand} {args : List Datum} {intrinsic : Intrinsic}
    (hargs : operands.mapM frame.operand = .ok args) (hnone : module.definition? callee = none)
    (hname : Intrinsic.ofName? callee = some intrinsic) :
    execute module limits frame callers state (.call result ret callee operands) =
      (Run.perform module intrinsic args state).map fun done =>
        (done.1.operation, ⟨frame.bindResult result done.1.value :: callers, done.2⟩) := by
  rw [execute, hargs]
  dsimp only [bind, Except.bind]
  rw [call.eq_def, hnone, hname]
  dsimp only [bind, Except.bind]
  cases Run.perform module intrinsic args state <;> rfl

/-- A step counts the next instruction and executes it. -/
theorem step_cons {rest : List Instruction} (hrest : frame.rest = instruction :: rest) :
    step module limits frame callers state = tick limits state >>= fun ticked =>
      execute module limits { frame with rest } callers ticked instruction := by
  rw [step, hrest]

/-- A machine makes the steps that the rules allow, and no others. -/
theorem step_eq_ok_iff : step module limits frame callers state = .ok (operation, next) ↔
    ∃ call, Steps module limits ⟨frame :: callers, state⟩ call next ∧ operation = handedOn call := by
  constructor
  · intro h
    rw [step] at h
    cases hrest : frame.rest with
    | nil =>
      rw [hrest] at h
      cases h
    | cons instruction rest =>
      rw [hrest] at h
      obtain ⟨ticked, htick, h⟩ := bind_eq_ok.mp h
      obtain ⟨call, hexecutes, hoperation⟩ := execute_eq_ok_iff.mp h
      exact ⟨call, .execute hrest htick hexecutes, hoperation⟩
  · rintro ⟨call, hsteps, hoperation⟩
    cases hsteps with
    | execute hrest htick hexecutes =>
      rw [step, hrest]
      exact bind_eq_ok.mpr ⟨_, htick, execute_eq_ok_iff.mpr ⟨call, hexecutes, hoperation⟩⟩

/-- What a machine comes to by steps, with the calls of the catalog that it makes on the way. -/
inductive Runs (module : Module) (limits : Limits) (start : Machine) :
    List CatalogCall → Machine → Prop
  | refl : Runs module limits start [] start
  | step {history : List CatalogCall} {machine next : Machine} {call : Option CatalogCall} :
      Runs module limits start history machine → Steps module limits machine call next →
      Runs module limits start (history ++ call.toList) next

/-- The operations that the calls of a run have become. -/
def operationsOf (history : List CatalogCall) : List Operation :=
  history.filterMap fun call => call.effect.operation

theorem operationsOf_append (first second : List CatalogCall) :
    operationsOf (first ++ second) = operationsOf first ++ operationsOf second :=
  List.filterMap_append

theorem operationsOf_toList (call : Option CatalogCall) :
    operationsOf call.toList = (handedOn call).toList := by
  cases call with
  | none => rfl
  | some made =>
    cases hoperation : made.effect.operation with
    | none => simp [operationsOf, handedOn, hoperation]
    | some operation => simp [operationsOf, handedOn, hoperation]

theorem Runs.head {start machine last : Machine} {call : Option CatalogCall}
    {history : List CatalogCall} (hfirst : Steps module limits start call machine)
    (h : Runs module limits machine history last) :
    Runs module limits start (call.toList ++ history) last := by
  induction h with
  | refl => simpa using Runs.step .refl hfirst
  | step _ hnext ih =>
    rw [← List.append_assoc]
    exact .step ih hnext

/-- A machine comes to another one by handing on operations exactly if there are calls of the
catalog on the way that become these operations. -/
theorem reaches_iff_runs {start last : Machine} {operations : List Operation} :
    Reaches module limits start operations last ↔
      ∃ history, Runs module limits start history last ∧ operations = operationsOf history := by
  constructor
  · intro h
    induction h with
    | refl machine => exact ⟨[], .refl, rfl⟩
    | step hstep _ ih =>
      obtain ⟨call, hsteps, rfl⟩ := step_eq_ok_iff.mp hstep
      obtain ⟨history, hruns, rfl⟩ := ih
      refine ⟨call.toList ++ history, hruns.head hsteps, ?_⟩
      rw [operationsOf_append, operationsOf_toList]
  · rintro ⟨history, hruns, rfl⟩
    induction hruns with
    | refl => exact .refl start
    | @step history machine next call _ hsteps ih =>
      have hlast : Reaches module limits machine (handedOn call).toList next := by
        have hsteps' := hsteps
        cases hsteps' with
        | execute _ _ _ =>
          simpa using Reaches.step (step_eq_ok_iff.mpr ⟨call, hsteps, rfl⟩) (.refl next)
      rw [operationsOf_append, operationsOf_toList]
      exact ih.trans hlast

/-- What is executed counts as one more step. -/
theorem eq_of_tick {ticked : RunState} (h : tick limits state = .ok ticked) :
    ticked = { state with steps := state.steps + 1 } := by
  rw [tick] at h
  split at h
  · split at h
    · cases h
    · cases h
      rfl
  · cases h
    rfl

/-- A property that every step keeps holds of all that a run comes to. -/
theorem Runs.preserves {keeps : Machine → Prop} {start last : Machine}
    {history : List CatalogCall} (h : Runs module limits start history last) (hstart : keeps start)
    (hsteps : ∀ machine call next, keeps machine → Steps module limits machine call next →
      keeps next) : keeps last := by
  induction h with
  | refl => exact hstart
  | step _ hnext ih => exact hsteps _ _ _ ih hnext

end Machine

end QuantumIR
