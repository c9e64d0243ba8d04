import QuantumIR.Proofs.Execution.Limits
import QuantumIR.Proofs.Execution.Registers
import QuantumIR.Proofs.Execution.Supported
import QuantumIR.Proofs.Graph.Flow

/-!
Modules without recursion and without loops. Functions have ranks that go down along every call, and
the blocks of a function have ranks that go down along every branch. So an instruction that does not
return makes the rank of its frame smaller, or puts a frame of smaller rank above it, and every run
ends. Along the frames of a run the ranks of the functions go up, so there are never more frames
than defined functions.
-/

namespace QuantumIR

open Verification

namespace Module

/-- Ranks of the functions of a module and of the blocks of each function. They go down along every
call and along every branch. -/
structure Ranks (module : Module) (calls : String → Nat) (branches : Function → String → Nat) :
    Prop where
  call : ∀ function ∈ module.definitions, ∀ instruction ∈ function.instructions, ∀ callee,
    instruction.callee? = some callee → calls callee < calls function.name
  branch : ∀ function ∈ module.definitions, ∀ block ∈ function.blocks, ∀ instruction ∈
    block.instructions, ∀ target ∈ instruction.successors,
      branches function target < branches function block.label

variable {module : Module} {entry : Function} {qubits results : Nat}

/-- Where no function can come to call itself, functions have ranks that go down along calls. -/
theorem exists_callRanks (h : module.isRecursive = false) :
    ∃ calls : String → Nat, ∀ function ∈ module.definitions, ∀ instruction ∈ function.instructions,
      ∀ callee, instruction.callee? = some callee → calls callee < calls function.name := by
  obtain ⟨rank, hrank⟩ := Graph.hasCycle_eq_false_iff.mp h
  refine ⟨rank, fun function hfunction instruction hinstruction callee hcallee => ?_⟩
  have hmem := List.mem_of_mem_filter hfunction
  apply hrank function.name
  · rw [callGraph, List.mem_eraseDups, List.mem_append]
    exact Or.inl (List.mem_map_of_mem hmem)
  · exact mem_calls.mpr ⟨function, hmem, rfl, instruction, hinstruction, hcallee⟩

/-- Where a function has no loop, its blocks have ranks that go down along branches. -/
theorem exists_branchRanks (h : module.Verified entry qubits results) {function : Function}
    (hfunction : function ∈ module.definitions) (hloop : function.hasLoop = false) :
    ∃ branches : String → Nat, ∀ block ∈ function.blocks, ∀ instruction ∈ block.instructions,
      ∀ target ∈ instruction.successors, branches target < branches block.label := by
  obtain ⟨rank, hrank⟩ := Graph.hasCycle_eq_false_iff.mp hloop
  refine ⟨fun label => ((function.lastBlockIndex? label).map rank).getD 0, ?_⟩
  intro block hblock instruction hinstruction target htarget
  have hterminates := (h.definitions function hfunction).blocks block hblock
  have hbranches := Function.branches_of_mem_successors hterminates hblock hinstruction htarget
  obtain ⟨start, hstart⟩ := Function.exists_lastBlockIndex? (List.mem_map_of_mem hblock)
  obtain ⟨next, hnext⟩ := Function.exists_lastBlockIndex? hbranches.1
  have hedge := Function.mem_flowGraph_edges_iff.mpr ⟨_, _, hbranches, hstart, hnext⟩
  have hnode := List.mem_range.mpr (Function.lt_length_of_lastBlockIndex? hstart)
  simpa [hstart, hnext] using hrank start hnode next hedge

theorem exists_ranks (h : module.Verified entry qubits results)
    (hcalls : module.isRecursive = false)
    (hloops : ∀ function ∈ module.definitions, function.hasLoop = false) :
    ∃ calls branches, module.Ranks calls branches := by
  obtain ⟨calls, hcall⟩ := exists_callRanks hcalls
  have hbranches : ∀ function, ∃ branches : String → Nat, function ∈ module.definitions →
      ∀ block ∈ function.blocks, ∀ instruction ∈ block.instructions,
        ∀ target ∈ instruction.successors, branches target < branches block.label := by
    intro function
    by_cases hfunction : function ∈ module.definitions
    · obtain ⟨branches, hbranch⟩ := exists_branchRanks h hfunction (hloops function hfunction)
      exact ⟨branches, fun _ => hbranch⟩
    · exact ⟨fun _ => 0, fun hmem => absurd hmem hfunction⟩
  choose branches hbranch using hbranches
  exact ⟨calls, branches, hcall, hbranch⟩

end Module

variable {module : Module} {entry : Function} {qubits results : Nat} {limits : Limits}
  {calls : String → Nat} {branches : Function → String → Nat}

/-- The rank of the function first, then that of the block, then what is left of the block. -/
def Frame.rank (calls : String → Nat) (branches : Function → String → Nat) (frame : Frame) :
    Nat ×ₗ Nat ×ₗ Nat :=
  toLex (calls frame.function.name,
    toLex (branches frame.function frame.block.label, frame.rest.length))

namespace Frame

variable {frame other : Frame}

theorem rank_bindResult (name : Option String) (datum : Option Datum) :
    (frame.bindResult name datum).rank calls branches = frame.rank calls branches := by
  simp [rank]

theorem rank_lt_of_function (h : calls frame.function.name < calls other.function.name) :
    frame.rank calls branches < other.rank calls branches :=
  Prod.Lex.toLex_lt_toLex.mpr (Or.inl h)

theorem rank_lt_of_block (hfunction : frame.function = other.function)
    (h : branches frame.function frame.block.label < branches other.function other.block.label) :
    frame.rank calls branches < other.rank calls branches := by
  refine Prod.Lex.toLex_lt_toLex.mpr (Or.inr ⟨by rw [hfunction], ?_⟩)
  exact Prod.Lex.toLex_lt_toLex.mpr (Or.inl h)

theorem rank_lt_of_rest {instruction : Instruction} {rest : List Instruction}
    (h : frame.rest = instruction :: rest) :
    rank calls branches { frame with rest } < frame.rank calls branches := by
  refine Prod.Lex.toLex_lt_toLex.mpr (Or.inr ⟨rfl, ?_⟩)
  refine Prod.Lex.toLex_lt_toLex.mpr (Or.inr ⟨rfl, ?_⟩)
  rw [h]
  exact Nat.lt_succ_self rest.length

/-- A function that is called next has a smaller rank. -/
theorem Placed.calls_lt (hplaced : frame.Placed module) (hranks : module.Ranks calls branches)
    {instruction : Instruction} {rest : List Instruction} (hrest : frame.rest = instruction :: rest)
    {callee : String} (hcallee : instruction.callee? = some callee) {function : Function}
    (hfunction : module.definition? callee = some function) :
    calls function.name < calls frame.function.name := by
  rw [Module.name_of_definition? hfunction]
  exact hranks.call frame.function hplaced.function instruction (hplaced.mem_instructions hrest)
    callee hcallee

/-- A jump makes the rank of a frame smaller. -/
theorem rank_jump_lt (hranks : module.Ranks calls branches) (hplaced : frame.Placed module)
    {instruction : Instruction} {rest : List Instruction} (hrest : frame.rest = instruction :: rest)
    {label : String} {next : Frame} (hgoes : Goes { frame with rest } instruction label)
    (hjump : jump { frame with rest } label = .ok next) :
    next.rank calls branches < frame.rank calls branches := by
  have hlabel : label ∈ instruction.successors := by
    cases hgoes with
    | branch => exact List.mem_cons_self
    | @branchIf _ _ _ truth _ => cases truth <;> simp [Instruction.successors]
  have hless := hranks.branch frame.function hplaced.function frame.block hplaced.block_mem
    instruction (hplaced.mem_block hrest) label hlabel
  obtain ⟨block, hblock, rfl⟩ := Machine.jump_eq_ok_iff.mp hjump
  have hfound : block.label = label := by simpa using List.find?_some hblock
  exact rank_lt_of_block rfl (hfound ▸ hless)

end Frame

namespace Machine

variable {frame : Frame} {callers : List Frame} {state : RunState}

/-- Whether a machine comes to a point at which it stops. -/
def Halts (module : Module) (limits : Limits) (machine : Machine) : Prop :=
  ∃ operations last outcome, Reaches module limits machine operations last ∧
    last.outcome? module limits = some outcome

theorem halts_nil (state : RunState) : Halts module limits ⟨[], state⟩ :=
  ⟨[], _, _, .refl _, rfl⟩

/-- A machine halts if the next one does, where there is a next one. -/
theorem halts_of_step (h : ∀ call next, Steps module limits ⟨frame :: callers, state⟩ call next →
    next.Halts module limits) : Halts module limits ⟨frame :: callers, state⟩ := by
  cases hstep : Machine.step module limits frame callers state with
  | error error =>
    exact ⟨[], _, _, .refl _, outcome?_cons_eq_some_iff.mpr ⟨error, hstep, rfl⟩⟩
  | ok result =>
    obtain ⟨operation, next⟩ := result
    obtain ⟨call, hsteps, -⟩ := step_eq_ok_iff.mp hstep
    obtain ⟨operations, last, outcome, hreaches, hlast⟩ := h call next hsteps
    exact ⟨_, last, outcome, .step hstep hreaches, hlast⟩

/-- With ranks, a machine halts if it halts after every return from its first frame. The induction
is on the rank of that frame. A call is followed by the run of the function that is called, which
has a smaller rank, and then by the run of the frame after the call. -/
theorem halts_of_returns (h : module.Verified entry qubits results)
    (hranks : module.Ranks calls branches) (hplaced : Placed module ⟨frame :: callers, state⟩)
    (hreturns : ∀ datum state, Halts module limits ⟨leave callers frame.returnTo datum, state⟩) :
    Halts module limits ⟨frame :: callers, state⟩ := by
  induction hrank : frame.rank calls branches using WellFoundedLT.induction
    generalizing frame callers state with
  | ind rank ih =>
    subst hrank
    apply halts_of_step
    intro call next hsteps
    have hnext := hsteps.placed h hplaced
    obtain ⟨hframe, hcallers⟩ := placed_cons.mp hplaced
    cases hsteps with
    | @execute _ _ _ ticked instruction rest _ _ hrest _ hexecutes =>
      cases hexecutes with
      | compute _ => exact ih _ (Frame.rank_lt_of_rest hrest) hnext hreturns rfl
      | jump hgoes hjump =>
        have hless := Frame.rank_jump_lt hranks hframe hrest hgoes hjump
        obtain ⟨_, -, rfl⟩ := jump_eq_ok_iff.mp hjump
        exact ih _ hless hnext hreturns rfl
      | @enter result _ _ _ _ function _ hfunction _ =>
        have hless := hframe.calls_lt hranks hrest rfl hfunction
        refine ih _ (Frame.rank_lt_of_function hless) hnext ?_ rfl
        intro datum after
        have hrank : (Frame.bindResult result datum { frame with rest }).rank calls branches <
            frame.rank calls branches := by
          rw [Frame.rank_bindResult]
          exact Frame.rank_lt_of_rest hrest
        obtain ⟨-, hafter⟩ := placed_cons.mp hnext
        obtain ⟨hafter, -⟩ := List.forall_mem_cons.mp hafter
        refine ih _ hrank (placed_cons.mpr ⟨hafter.bindResult result datum, hcallers⟩) ?_ rfl
        rw [Frame.returnTo_bindResult]
        exact hreturns
      | leave _ => exact hreturns _ _
      | @perform result _ _ _ _ _ effect _ _ _ _ _ =>
        refine ih _ ?_ hnext ?_ rfl
        · rw [Frame.rank_bindResult]
          exact Frame.rank_lt_of_rest hrest
        · rw [Frame.returnTo_bindResult]
          exact hreturns

/-- Along the frames of a machine, the one that executes first, the ranks of the functions go
up. -/
def Ascends (calls : String → Nat) (machine : Machine) : Prop :=
  (machine.frames.map Frame.function).Pairwise fun called caller =>
    calls called.name < calls caller.name

theorem map_function_leave (callers : List Frame) (returnTo : Option String)
    (datum : Option Datum) :
    (leave callers returnTo datum).map Frame.function = callers.map Frame.function := by
  cases callers with
  | nil => rfl
  | cons caller others =>
    rw [leave, List.map_cons, List.map_cons, Frame.function_bindResult]

/-- A frame of smaller rank above the first one. -/
theorem Ascends.push {machine : Machine} (h : Ascends calls ⟨frame :: callers, state⟩)
    {function : Function} (hless : calls function.name < calls frame.function.name)
    (hframes : machine.frames.map Frame.function =
      function :: frame.function :: callers.map Frame.function) : machine.Ascends calls := by
  rw [Ascends, hframes]
  refine List.pairwise_cons.mpr ⟨?_, h⟩
  intro caller hcaller
  rcases List.mem_cons.mp hcaller with rfl | hcaller
  · exact hless
  · exact hless.trans ((List.pairwise_cons.mp h).1 caller hcaller)

theorem Steps.ascends {machine next : Machine} {call : Option CatalogCall}
    (hsteps : Steps module limits machine call next) (hranks : module.Ranks calls branches)
    (hplaced : machine.Placed module) (h : machine.Ascends calls) : next.Ascends calls := by
  cases hsteps with
  | @execute frame callers _ _ instruction rest _ _ hrest _ hexecutes =>
    obtain ⟨hframe, -⟩ := placed_cons.mp hplaced
    cases hexecutes with
    | compute _ => exact h
    | jump _ hjump =>
      obtain ⟨_, -, rfl⟩ := jump_eq_ok_iff.mp hjump
      exact h
    | enter _ hfunction _ => exact h.push (hframe.calls_lt hranks hrest rfl hfunction) rfl
    | leave _ =>
      rw [Ascends, map_function_leave]
      exact (List.pairwise_cons.mp h).2
    | perform _ _ _ _ =>
      rw [Ascends, List.map_cons, Frame.function_bindResult]
      exact h

theorem Runs.ascends {start last : Machine} {history : List CatalogCall}
    (h : Runs module limits start history last) (hverified : module.Verified entry qubits results)
    (hranks : module.Ranks calls branches) (hplaced : start.Placed module)
    (hstart : start.Ascends calls) : last.Ascends calls := by
  induction h with
  | refl => exact hstart
  | step hbefore hsteps ih => exact hsteps.ascends hranks (hbefore.placed hverified hplaced) ih

/-- Frames whose functions have different ranks are at most as many as defined functions. -/
theorem Ascends.length_frames_le {machine : Machine} (h : machine.Ascends calls)
    (hplaced : machine.Placed module) : machine.frames.length ≤ module.definitions.length := by
  have hnodup : (machine.frames.map Frame.function).Nodup :=
    h.imp fun hless heq => absurd hless (by rw [heq]; exact lt_irrefl _)
  have hsubset : machine.frames.map Frame.function ⊆ module.definitions := by
    intro function hfunction
    obtain ⟨frame, hframe, rfl⟩ := List.mem_map.mp hfunction
    exact (hplaced frame hframe).function
  rw [← List.length_map Frame.function]
  exact (hnodup.subperm hsubset).length_le

/-- With as many frames as there are defined functions, no call is too deep. -/
theorem Ascends.outcome?_ne_callDepth {machine : Machine} (h : machine.Ascends calls)
    (hverified : module.Verified entry qubits results) (hranks : module.Ranks calls branches)
    (hplaced : machine.Placed module) (hdepth : module.definitions.length ≤ limits.depth)
    (limit : Nat) : machine.outcome? module limits ≠ some (.error (.callDepth limit)) := by
  intro houtcome
  obtain ⟨_ | ⟨frame, callers⟩, state⟩ := machine
  · cases houtcome
  obtain ⟨_, hstep, ⟨⟩⟩ := outcome?_cons_eq_some_iff.mp houtcome
  cases fails_of_step hstep with
  | atHand hlocal => exact hlocal
  | callDepth hrest hcallee hdefined hdeep =>
    obtain ⟨function, hfunction⟩ := Option.isSome_iff_exists.mp hdefined
    obtain ⟨hframe, -⟩ := placed_cons.mp hplaced
    let entered : Machine := ⟨.enter function [] none :: frame :: callers, state⟩
    have hascends : entered.Ascends calls :=
      h.push (hframe.calls_lt hranks hrest hcallee hfunction) rfl
    have hentered : entered.Placed module := placed_cons.mpr
      ⟨Frame.placed_enter hverified (Module.mem_of_definition? hfunction) [] none, hplaced⟩
    have hframes : callers.length + 2 ≤ module.definitions.length :=
      hascends.length_frames_le hentered
    omega

end Machine

namespace Module

open Machine

variable {entryPoint : Option String} {stream : Option (List Bool)}

theorem prepare_ne_callDepth (limit : Nat) :
    module.prepare entryPoint stream ≠ .error (.callDepth limit) := by
  intro h
  rcases bind_eq_error h with hresolve | ⟨function, -, h⟩
  · obtain ⟨fault, heq⟩ := exists_fault_of_resolveEntry hresolve
    cases heq
  · split at h <;> cases h

/-- A verified module in which no function can come to call itself and no function has a loop stops
after finitely many instructions, however it is evaluated: whatever the entry point and the stream,
also without a limit on steps. If there may be as many frames as there are defined functions, no
call is too deep. -/
theorem stops_of_loopFree (h : module.verify = .ok ()) (hcalls : module.isRecursive = false)
    (hloops : ∀ function ∈ module.definitions, function.hasLoop = false) (depth : Nat)
    (entryPoint : Option String) (stream : Option (List Bool)) :
    (∃ count operations outcome,
      module.StopsAfter ⟨none, depth⟩ entryPoint stream count operations outcome) ∧
    (module.definitions.length ≤ depth → ∀ operations limit,
      ¬module.Stops ⟨none, depth⟩ entryPoint stream operations (.error (.callDepth limit))) := by
  obtain ⟨entry, qubits, results, hverified⟩ := verify_eq_ok_iff.mp h
  obtain ⟨calls, branches, hranks⟩ := exists_ranks hverified hcalls hloops
  constructor
  · suffices hstops : ∃ operations outcome,
        module.Stops ⟨none, depth⟩ entryPoint stream operations outcome by
      obtain ⟨operations, outcome, hstops⟩ := hstops
      obtain ⟨count, hstops⟩ := stops_iff_stopsAfter.mp hstops
      exact ⟨count, operations, outcome, hstops⟩
    cases hprepare : module.prepare entryPoint stream with
    | error error => exact ⟨[], _, stops_of_prepare hprepare⟩
    | ok start =>
      have hplaced := placed_of_prepare hverified hprepare
      obtain ⟨function, -, rfl⟩ := exists_start_of_prepare hprepare
      obtain ⟨operations, last, outcome, hreaches, hlast⟩ :=
        halts_of_returns hverified hranks hplaced fun _ state => halts_nil state
      exact ⟨operations, outcome, stops_of_reaches hprepare hreaches hlast⟩
  · intro hdepth operations limit hstops
    rcases hstops.cases with ⟨error, hprepare, -, herror⟩ |
      ⟨start, last, hprepare, hreaches, hlast⟩
    · cases herror
      exact prepare_ne_callDepth limit hprepare
    · have hplaced := placed_of_prepare hverified hprepare
      obtain ⟨function, -, rfl⟩ := exists_start_of_prepare hprepare
      obtain ⟨history, hruns, -⟩ := reaches_iff_runs.mp hreaches
      have hascends := hruns.ascends hverified hranks hplaced (List.pairwise_singleton _ _)
      exact hascends.outcome?_ne_callDepth hverified hranks (hruns.placed hverified hplaced)
        hdepth limit hlast

theorem stops_flipTwice : flipTwice.verify = .ok () ∧ flipTwice.isRecursive = false ∧
    (∀ function ∈ flipTwice.definitions, function.hasLoop = false) ∧
    flipTwice.definitions.length = 2 ∧ ∀ stream,
      (∃ count operations outcome,
        flipTwice.StopsAfter ⟨none, 2⟩ (some "main") stream count operations outcome) ∧
      ∀ operations limit,
        ¬flipTwice.Stops ⟨none, 2⟩ (some "main") stream operations (.error (.callDepth limit)) := by
  have hverify : flipTwice.verify = .ok () := by rfl
  have hcalls : flipTwice.isRecursive = false := by cbv
  have hloops : ∀ function ∈ flipTwice.definitions, function.hasLoop = false := by
    have hall : (flipTwice.definitions.all fun function => !function.hasLoop) = true := by cbv
    simpa using hall
  refine ⟨hverify, hcalls, hloops, rfl, fun stream => ?_⟩
  obtain ⟨hstops, hdeep⟩ := stops_of_loopFree hverify hcalls hloops 2 (some "main") stream
  exact ⟨hstops, hdeep le_rfl⟩

end Module

end QuantumIR
