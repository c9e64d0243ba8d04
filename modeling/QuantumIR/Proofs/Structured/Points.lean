import QuantumIR.Proofs.Execution.Reaches
import QuantumIR.Proofs.Structured.Runs
import QuantumIR.Proofs.Structured.Steps
import QuantumIR.Proofs.Verified.Execution

/-!
Machines in finished code. A frame stands where a builder would have added its next instruction;
from there it executes what the builder added afterwards. What a machine comes to is put next to
what a direct interpretation comes to, and such pieces are put together as the code was.
-/

namespace QuantumIR

open Builder

variable {additions : Additions} {builder later last : Builder} {frame : Frame}

namespace Builder

/-- The code under a label as it stands in the finished module. -/
def finalCode (last : Builder) (label : String) : List Instruction :=
  (last.code label).map (renumbered (numbering last.blocks))

/-- A block of the finished module has the code that was built. -/
theorem block?_entry {label : String} (h : label ∈ last.labels) :
    ∃ block, last.entry.block? label = some block ∧ block.instructions = last.finalCode label := by
  obtain ⟨block, hblock⟩ := exists_block? h
  refine ⟨{ block with
    instructions := block.instructions.map (renumbered (numbering last.blocks)) }, ?_, ?_⟩
  · have hsame : (fun block : Block => decide (block.label = label)) ∘ (fun block : Block =>
        { block with instructions := block.instructions.map (renumbered (numbering last.blocks)) }) =
        fun block => decide (block.label = label) := rfl
    rw [Function.block?, entry, renumber_eq, List.find?_map, hsame]
    exact congrArg _ hblock
  · rw [finalCode, code, hblock]
    rfl

/-- Functions of the catalog are not defined in a finished module. -/
theorem definition?_finished (h : last.Sound additions) {callee : String}
    (hcatalog : (Intrinsic.ofName? callee).isSome) : last.finished.definition? callee = none := by
  cases hfind : last.finished.definition? callee with
  | none => rfl
  | some function =>
    exfalso
    have hmem := Module.mem_of_definition? hfind
    rw [definitions_finished h, List.mem_singleton] at hmem
    obtain ⟨hfunction, -⟩ := Option.filter_eq_some_iff.mp hfind
    have hname : function.name = callee := by simpa using List.find?_some hfunction
    have hentry : Intrinsic.ofName? entryName = none := by decide
    rw [← hname, hmem] at hcatalog
    cases hentry ▸ hcatalog

end Builder

/-- A frame of a finished module stands where a builder would have added its next instruction. -/
structure Frame.At (last builder : Builder) (frame : Frame) : Prop where
  function : frame.function = last.entry
  rest : frame.rest = (last.finalCode builder.current).drop (builder.code builder.current).length

namespace Frame

/-- What was added next is executed next. -/
theorem At.next {instruction : Instruction} (h : frame.At last builder)
    (happends : Appends additions builder instruction later) (hlast : Later additions later last) :
    ∃ rest, frame.rest = renumbered (numbering last.blocks) instruction :: rest ∧
      ∀ next : Frame, next.function = frame.function → next.rest = rest → next.At last later := by
  obtain ⟨more, hmore⟩ := hlast.code_prefix builder.current
  rw [happends.code, if_pos rfl, List.append_assoc] at hmore
  refine ⟨more.map (renumbered (numbering last.blocks)), ?_, ?_⟩
  · rw [h.rest, finalCode, ← hmore, ← List.map_drop, List.drop_left]
    rfl
  · intro next hfunction hrest
    refine ⟨hfunction.trans h.function, ?_⟩
    rw [hrest, happends.current, happends.code, if_pos rfl, finalCode, ← hmore,
      ← List.append_assoc, ← List.map_drop, List.drop_left]

/-- Where code was not added, a frame stands where it stood. -/
theorem At.congr (h : frame.At last builder) (hcurrent : later.current = builder.current)
    (hcode : later.code builder.current = builder.code builder.current) : frame.At last later :=
  ⟨h.function, by rw [h.rest, hcurrent, hcode]⟩

/-- A jump leads to the start of a block. -/
theorem exists_jump_at (hfunction : frame.function = last.entry)
    (hmem : builder.current ∈ last.labels) (hcode : builder.code builder.current = []) :
    ∃ next, frame.jump builder.current = .ok next ∧ next.At last builder := by
  obtain ⟨block, hblock, hinstructions⟩ := block?_entry hmem
  refine ⟨{ frame with block, rest := block.instructions }, ?_, hfunction, ?_⟩
  · rw [jump, hfunction, hblock]
  · rw [hinstructions, hcode]
    rfl

end Frame

namespace Machine

variable {module : Module} {limits : Limits} {callers : List Frame} {state state' : RunState}
  {rest : List Instruction}

theorem tick_unlimited (h : limits.steps = none) (state : RunState) :
    tick limits state = .ok { state with steps := state.steps + 1 } := by
  rw [tick, h]

/-- Without a limit on steps, the next instruction is executed. -/
theorem step_unlimited (h : limits.steps = none) {instruction : Instruction}
    (hrest : frame.rest = instruction :: rest) : step module limits frame callers state =
      execute module limits { frame with rest } callers { state with steps := state.steps + 1 }
        instruction := by
  rw [step, hrest]
  change Except.bind (tick limits state) _ = _
  rw [tick_unlimited h]
  rfl

/-- A call to the catalog does what its function does. -/
theorem step_call (h : limits.steps = none) {result : Option String} {ret : Ty}
    {callee : Intrinsic} {operands : List Operand} {args : List Datum}
    (hrest : frame.rest = .call result ret callee.name operands :: rest)
    (hdefinition : module.definition? callee.name = none)
    (hargs : operands.mapM frame.operand = .ok args) :
    step module limits frame callers state =
      (Run.perform module callee args { state with steps := state.steps + 1 }).map fun outcome =>
        (outcome.1.operation,
          ⟨({ frame with rest } : Frame).bindResult result outcome.1.value :: callers, outcome.2⟩) := by
  have hargs' : operands.mapM ({ frame with rest } : Frame).operand = .ok args := hargs
  rw [step_unlimited h hrest, execute]
  change Except.bind (operands.mapM ({ frame with rest } : Frame).operand) _ = _
  rw [hargs']
  change call module limits _ callers _ result callee.name args = _
  rw [call, hdefinition, callee.ofName?_name]
  change Except.bind (Run.perform module callee args _) _ = _
  cases Run.perform module callee args { state with steps := state.steps + 1 } with
  | error error => rfl
  | ok outcome => rfl

theorem step_branch (h : limits.steps = none) {target : String} {next : Frame}
    (hrest : frame.rest = .branch target :: rest)
    (hjump : ({ frame with rest } : Frame).jump target = .ok next) :
    step module limits frame callers state =
      .ok (none, ⟨next :: callers, { state with steps := state.steps + 1 }⟩) := by
  rw [step_unlimited h hrest]
  change Except.bind (({ frame with rest } : Frame).jump target) _ = _
  rw [hjump]
  rfl

theorem step_branchIf (h : limits.steps = none) {condition : Value} {onTrue onFalse : String}
    {value : Bool} {next : Frame} (hrest : frame.rest = .branchIf condition onTrue onFalse :: rest)
    (hcondition : frame.condition condition = .ok value)
    (hjump : ({ frame with rest } : Frame).jump (if value then onTrue else onFalse) = .ok next) :
    step module limits frame callers state =
      .ok (none, ⟨next :: callers, { state with steps := state.steps + 1 }⟩) := by
  have hlocal : executeLocal { frame with rest } (.branchIf condition onTrue onFalse) = .ok next := by
    change Except.bind (frame.condition condition) _ = _
    rw [hcondition]
    exact hjump
  rw [step_unlimited h hrest]
  change Except.bind (executeLocal { frame with rest } (.branchIf condition onTrue onFalse)) _ = _
  rw [hlocal]
  rfl

/-- A return of nothing from the entry point ends the run. -/
theorem step_ret (h : limits.steps = none) (hrest : frame.rest = .ret none :: rest) :
    step module limits frame [] state =
      .ok (none, ⟨[], { state with steps := state.steps + 1 }⟩) := by
  rw [step_unlimited h hrest]
  rfl

end Machine

/-- What a machine comes to in a finished module, next to what a direct interpretation comes to:
the operations after those known before are handed on, and either the machine goes on where it
should with what is known, or it stops with the same error. -/
def Follows {α : Type} (last : Builder) (limits : Limits) (stream : Option (List Bool))
    (machine : Machine) (before : List Operation) (goesOn : α → Frame → Prop) :
    Except EvalError α × Ledger → Prop
  | (.ok a, ledger) => ∃ operations frame state,
      Machine.Reaches last.finished limits machine operations ⟨[frame], state⟩ ∧ goesOn a frame ∧
        ledger.Agrees stream state ∧ ledger.operations = before ++ operations
  | (.error error, ledger) => ∃ operations stopped,
      Machine.Reaches last.finished limits machine operations stopped ∧
        stopped.outcome? last.finished limits = some (.error error) ∧
        ledger.operations = before ++ operations

namespace Follows

variable {α β : Type} {limits : Limits} {stream : Option (List Bool)} {machine next : Machine}
  {before operations : List Operation} {goesOn : α → Frame → Prop} {goesOn' : β → Frame → Prop}
  {outcome : Except EvalError α × Ledger}

/-- What a machine comes to before it follows an interpretation counts as well. -/
theorem of_reaches (hreaches : Machine.Reaches last.finished limits machine operations next)
    (h : Follows last limits stream next (before ++ operations) goesOn outcome) :
    Follows last limits stream machine before goesOn outcome := by
  obtain ⟨_ | a, ledger⟩ := outcome
  · obtain ⟨operations', stopped, hreaches', hstopped, hoperations⟩ := h
    rw [List.append_assoc] at hoperations
    exact ⟨_, stopped, hreaches.trans hreaches', hstopped, hoperations⟩
  · obtain ⟨operations', frame, state, hreaches', hgoesOn, hagrees, hoperations⟩ := h
    rw [List.append_assoc] at hoperations
    exact ⟨_, frame, state, hreaches.trans hreaches', hgoesOn, hagrees, hoperations⟩

theorem mono {goesOn' : α → Frame → Prop}
    (h : Follows last limits stream machine before goesOn outcome)
    (hmono : ∀ a frame, goesOn a frame → goesOn' a frame) :
    Follows last limits stream machine before goesOn' outcome := by
  obtain ⟨_ | a, ledger⟩ := outcome
  · exact h
  · obtain ⟨operations, frame, state, hreaches, hgoesOn, hagrees, hoperations⟩ := h
    exact ⟨operations, frame, state, hreaches, hmono a frame hgoesOn, hagrees, hoperations⟩

/-- A machine goes on after it followed an interpretation. -/
theorem goOn {goesOn' : α → Frame → Prop}
    (h : Follows last limits stream machine before goesOn outcome)
    (h' : ∀ a frame state (ledger : Ledger), goesOn a frame → ledger.Agrees stream state →
      Follows last limits stream ⟨[frame], state⟩ ledger.operations goesOn' (.ok a, ledger)) :
    Follows last limits stream machine before goesOn' outcome := by
  obtain ⟨_ | a, ledger⟩ := outcome
  · exact h
  · obtain ⟨operations, frame, state, hreaches, hgoesOn, hagrees, hoperations⟩ := h
    refine of_reaches hreaches ?_
    rw [← hoperations]
    exact h' a frame state ledger hgoesOn hagrees

theorem bind {meaning : Interpreting α} {meaning' : α → Interpreting β} {ledger : Ledger}
    (h : Follows last limits stream machine ledger.operations goesOn (meaning.run.run ledger))
    (h' : ∀ a frame state (after : Ledger), goesOn a frame → after.Agrees stream state →
      Follows last limits stream ⟨[frame], state⟩ after.operations goesOn'
        ((meaning' a).run.run after)) :
    Follows last limits stream machine ledger.operations goesOn'
      ((meaning >>= meaning').run.run ledger) := by
  rw [ExceptT.run_bind, StateT.run_bind]
  generalize meaning.run.run ledger = outcome at h
  obtain ⟨_ | a, after⟩ := outcome
  · exact h
  · obtain ⟨operations, frame, state, hreaches, hgoesOn, hagrees, hoperations⟩ := h
    refine of_reaches hreaches ?_
    rw [← hoperations]
    exact h' a frame state after hgoesOn hagrees

theorem pure {a : α} {state : RunState} {ledger : Ledger} (h : goesOn a frame)
    (hagrees : ledger.Agrees stream state) : Follows last limits stream ⟨[frame], state⟩
      ledger.operations goesOn ((Pure.pure a : Interpreting α).run.run ledger) :=
  ⟨[], frame, state, .refl _, h, hagrees, (List.append_nil _).symm⟩

/-- One step that hands on nothing. -/
theorem step_silent {state : RunState} {frame' : Frame}
    (hstep : Machine.step last.finished limits frame [] state =
      .ok (none, ⟨[frame'], { state with steps := state.steps + 1 }⟩))
    (h : Follows last limits stream ⟨[frame'], { state with steps := state.steps + 1 }⟩ before goesOn
      outcome) : Follows last limits stream ⟨[frame], state⟩ before goesOn outcome := by
  have hreaches : Machine.Reaches last.finished limits ⟨[frame], state⟩ [] _ :=
    .step hstep (.refl _)
  refine of_reaches hreaches ?_
  rw [List.append_nil]
  exact h

end Follows

theorem Ledger.Agrees.tick {stream : Option (List Bool)} {ledger : Ledger} {state : RunState}
    (h : ledger.Agrees stream state) :
    ledger.Agrees stream { state with steps := state.steps + 1 } :=
  ⟨h.stream, h.consumed, h.results, h.measurements, h.output⟩

/-- A call to the catalog follows what its function does, and hands on its operation. -/
theorem follows_call {β : Type} {limits : Limits} {stream : Option (List Bool)} {state : RunState}
    {ledger : Ledger} {rest : List Instruction} {result : Option String} {ret : Ty}
    {callee : Intrinsic} {operands : List Operand} {args : List Datum} {meaning : Interpreting β}
    {effect : β → Effect} (hsteps : limits.steps = none) (hsound : last.Sound additions)
    (hrest : frame.rest = .call result ret callee.name operands :: rest)
    (hargs : operands.mapM frame.operand = .ok args)
    (himplements : Implements stream (Run.perform last.finished callee args) (do
      return effect (← meaning)))
    (hagrees : ledger.Agrees stream state) :
    Follows last limits stream ⟨[frame], state⟩ ledger.operations
      (fun b next => next = ({ frame with rest } : Frame).bindResult result (effect b).value)
      ((do
        let b ← meaning
        modify fun known =>
          { known with operations := known.operations ++ (effect b).operation.toList }
        return b : Interpreting β).run.run ledger) := by
  have hcall : Machine.step last.finished limits frame [] state = _ := Machine.step_call hsteps
    hrest (definition?_finished hsound (by rw [callee.ofName?_name]; rfl)) hargs
  have hends := himplements ledger _ hagrees.tick
  rw [ExceptT.run_bind, StateT.run_bind] at hends ⊢
  generalize meaning.run.run ledger = outcome at hends
  obtain ⟨error | b, after⟩ := outcome
  · change EndsAs stream ledger.operations _ (Except.error error, after) at hends
    obtain ⟨hperform, hoperations⟩ := hends
    rw [hperform] at hcall
    refine ⟨[], ⟨[frame], state⟩, .refl _, ?_, ?_⟩
    · rw [Machine.outcome?, hcall]
      rfl
    · rw [List.append_nil]
      exact hoperations
  · change EndsAs stream ledger.operations _ (Except.ok (effect b), after) at hends
    obtain ⟨state', hperform, hagrees', hoperations⟩ := hends
    rw [hperform] at hcall
    refine ⟨_, _, state', .step hcall (.refl _), rfl, ?_, ?_⟩
    · exact ⟨hagrees'.stream, hagrees'.consumed, hagrees'.results, hagrees'.measurements,
        hagrees'.output⟩
    · rw [List.append_nil]
      exact congrArg (· ++ _) hoperations

section

variable {α : Type} {target : Builder} {limits : Limits} {stream : Option (List Bool)}
  {state : RunState} {before : List Operation} {goesOn : α → Frame → Prop}
  {outcome : Except EvalError α × Ledger}

/-- A machine goes on at the start of the block that code branches to. -/
theorem follows_branch (hsteps : limits.steps = none) {label : String}
    (happends : Appends additions builder (.branch label) later) (hlast : Later additions later last)
    (hat : frame.At last builder) (hcurrent : target.current = label)
    (hmem : label ∈ last.labels) (hcode : target.code label = [])
    (h : ∀ next : Frame, next.At last target → Follows last limits stream
      ⟨[next], { state with steps := state.steps + 1 }⟩ before goesOn outcome) :
    Follows last limits stream ⟨[frame], state⟩ before goesOn outcome := by
  subst hcurrent
  obtain ⟨rest, hrest, -⟩ := hat.next happends hlast
  have hfunction : { frame with rest }.function = last.entry := hat.function
  obtain ⟨next, hjump, hnext⟩ := Frame.exists_jump_at hfunction hmem hcode
  exact Follows.step_silent (Machine.step_branch hsteps hrest hjump) (h next hnext)

/-- A machine goes on at the start of the block for the value of a condition. -/
theorem follows_branchIf (hsteps : limits.steps = none) {condition : Value}
    {onTrue onFalse : String} {value : Bool}
    (happends : Appends additions builder (.branchIf condition onTrue onFalse) later)
    (hlast : Later additions later last) (hat : frame.At last builder)
    (hcondition :
      frame.condition (renameValue (numbering last.blocks) condition) = .ok value)
    (hcurrent : target.current = if value then onTrue else onFalse)
    (hmem : target.current ∈ last.labels) (hcode : target.code target.current = [])
    (h : ∀ next : Frame, next.At last target → Follows last limits stream
      ⟨[next], { state with steps := state.steps + 1 }⟩ before goesOn outcome) :
    Follows last limits stream ⟨[frame], state⟩ before goesOn outcome := by
  obtain ⟨rest, hrest, -⟩ := hat.next happends hlast
  have hfunction : { frame with rest }.function = last.entry := hat.function
  obtain ⟨next, hjump, hnext⟩ := Frame.exists_jump_at hfunction hmem hcode
  rw [hcurrent] at hjump
  exact Follows.step_silent (Machine.step_branchIf hsteps hrest hcondition hjump) (h next hnext)

end

end QuantumIR
