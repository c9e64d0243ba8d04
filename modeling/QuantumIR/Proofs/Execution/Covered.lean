import QuantumIR.Proofs.Execution.Registers
import QuantumIR.Proofs.Execution.Supported
import QuantumIR.Proofs.Graph.Flow

/-!
Where a run comes to, by the graphs of its module. A jump follows a branch and a call follows a
call edge, so a run enters only functions that the call graph reaches from its entry point, and in
each of them only blocks that control can reach from the first one.
-/

namespace QuantumIR

variable {module : Module} {entry : Function} {qubits results : Nat} {limits : Limits}

namespace Frame

variable {frame other : Frame} {label : String}

/-- Branches lead from the first block of a function to the one that a frame stands in. -/
def Flows (frame : Frame) : Prop :=
  ∃ first, frame.function.blocks.head? = some first ∧
    Relation.ReflTransGen frame.function.Branches first.label frame.block.label

theorem Flows.bindResult (h : frame.Flows) (name : Option String) (datum : Option Datum) :
    (frame.bindResult name datum).Flows := by
  simpa [Flows] using h

theorem flows_enter {function : Function} (hbody : function.blocks ≠ []) (args : List Datum)
    (returnTo : Option String) : (Frame.enter function args returnTo).Flows := by
  cases hblocks : function.blocks with
  | nil => exact absurd hblocks hbody
  | cons first rest =>
    have hblock : (Frame.enter function args returnTo).block = first := by
      simp [Frame.enter, hblocks]
    refine ⟨first, ?_, ?_⟩
    · change function.blocks.head? = some first
      rw [hblocks, List.head?_cons]
    · rw [hblock]

theorem Flows.jump (h : frame.Flows)
    (hbranches : frame.function.Branches frame.block.label label)
    (hjump : frame.jump label = .ok other) : other.Flows := by
  obtain ⟨block, hblock, rfl⟩ := Machine.jump_eq_ok_iff.mp hjump
  have hlabel : block.label = label := by simpa using List.find?_some hblock
  obtain ⟨first, hfirst, hpath⟩ := h
  exact ⟨first, hfirst, hlabel ▸ hpath.tail hbranches⟩

theorem Goes.mem_successors {instruction : Instruction} (h : frame.Goes instruction label) :
    label ∈ instruction.successors := by
  cases h with
  | branch => exact List.mem_cons_self
  | @branchIf _ _ _ truth _ => cases truth <;> simp [Instruction.successors]

/-- Control can reach the block of a frame. -/
theorem Flows.mem_reachableLabels (h : frame.Flows)
    (hlabels : (frame.function.blocks.map Block.label).Nodup) :
    frame.block.label ∈ frame.function.reachableLabels :=
  (Function.mem_reachableLabels_iff hlabels).mpr h

end Frame

namespace Machine

variable {machine next : Machine} {call : Option CatalogCall} {history : List CatalogCall}

/-- Whether branches lead to the blocks of all frames. -/
def Flows (machine : Machine) : Prop :=
  ∀ frame ∈ machine.frames, frame.Flows

/-- A step goes on to no block but one that a branch leads to. -/
theorem Steps.flows (h : Steps module limits machine call next)
    (hverified : module.Verified entry qubits results) (hplaced : machine.Placed module)
    (hflows : machine.Flows) : next.Flows := by
  cases h with
  | @execute frame callers _ _ instruction rest _ _ hrest _ hexecutes =>
    obtain ⟨hframe, hcallers⟩ := List.forall_mem_cons.mp hflows
    have hplace := hplaced frame List.mem_cons_self
    have hadvance : Frame.Flows { frame with rest } := hframe
    cases hexecutes with
    | compute => exact List.forall_mem_cons.mpr ⟨hadvance, hcallers⟩
    | jump hgoes hjump =>
      have hterminates :=
        (hverified.definitions _ hplace.function).blocks frame.block hplace.block_mem
      have hbranches := Function.branches_of_mem_successors hterminates hplace.block_mem
        (hplace.mem_block hrest) hgoes.mem_successors
      exact List.forall_mem_cons.mpr ⟨hadvance.jump hbranches hjump, hcallers⟩
    | @enter _ _ _ _ _ function _ hfunction _ =>
      have hdefined := (List.mem_filter.mp (Module.mem_of_definition? hfunction)).2
      have hbody : function.blocks ≠ [] := by simpa [Function.isDeclaration] using hdefined
      exact List.forall_mem_cons.mpr
        ⟨Frame.flows_enter hbody _ _, List.forall_mem_cons.mpr ⟨hadvance, hcallers⟩⟩
    | leave => exact forall_mem_leave hcallers fun _ hcaller => hcaller.bindResult _ _
    | perform => exact List.forall_mem_cons.mpr ⟨hadvance.bindResult _ _, hcallers⟩

theorem Runs.flows {start : Machine} (h : Runs module limits start history machine)
    (hverified : module.Verified entry qubits results) (hplaced : start.Placed module)
    (hflows : start.Flows) : machine.Flows := by
  induction h with
  | refl => exact hflows
  | step hruns hstep ih => exact hstep.flows hverified (hruns.placed hverified hplaced) ih

end Machine

namespace Module

/-- The graphs of a module cover its runs. In a run of a verified module every active function is
reached in the call graph from the entry point, and stands in a block that control can reach. The
labels that control can reach are those that branches lead to from the first block, if no two
blocks share a label; and a walk over the call graph meets the names that calls lead to from its
root, each once, if the module mentions the root, and nothing otherwise. -/
theorem graphs_cover_runs (module : Module) :
    (module.verify = .ok () → ∀ limits entryPoint stream entry start operations machine,
      module.resolveEntry entryPoint = .ok entry → module.prepare entryPoint stream = .ok start →
      Machine.Reaches module limits start operations machine → ∀ frame ∈ machine.frames,
        frame.function ∈ module.definitions ∧
          frame.function.name ∈ module.callGraph.walk entry.name ∧
          frame.block ∈ frame.function.blocks ∧
          frame.block.label ∈ frame.function.reachableLabels ∧
          frame.block.label ∉ frame.function.unreachableLabels) ∧
      (∀ function : Function, (function.blocks.map Block.label).Nodup → ∀ label,
        (label ∈ function.reachableLabels ↔ ∃ first, function.blocks.head? = some first ∧
          Relation.ReflTransGen function.Branches first.label label)) ∧
      ∀ root, (module.callGraph.walk root).Nodup ∧
        ∀ name, name ∈ module.callGraph.walk root ↔
          module.Mentions root ∧ module.CanCall root name := by
  refine ⟨?runs, fun _ hlabels _ => Function.mem_reachableLabels_iff hlabels, fun root => ?calls⟩
  case runs =>
    intro hverify limits entryPoint stream entry start operations machine hentry hprepare hreaches
      frame hframe
    obtain ⟨marked, qubits, results, hverified⟩ := verify_eq_ok_iff.mp hverify
    have hplaced := placed_of_prepare hverified hprepare
    obtain ⟨found, hfound, rfl⟩ := exists_start_of_prepare hprepare
    cases hentry.symm.trans hfound
    obtain ⟨history, hruns, -⟩ := Machine.reaches_iff_runs.mp hreaches
    have hplace := hruns.placed hverified hplaced frame hframe
    have hcalled := hruns.calledFrom (mem_functions_of_resolveEntry hentry) frame hframe
    have hbody : entry.blocks ≠ [] := by
      simpa [Function.isDeclaration] using isDeclaration_of_resolveEntry hentry
    have hstart : (Machine.start entry stream).Flows :=
      List.forall_mem_singleton.mpr (Frame.flows_enter hbody [] none)
    have hflows := hruns.flows hverified hplaced hstart frame hframe
    have hlabels := (hverified.definitions _ hplace.function).labels
    have hreachable := hflows.mem_reachableLabels hlabels
    have hwalk := (mem_walk_callGraph_iff (mem_names_of_resolveEntry hentry)).mpr hcalled.called
    refine ⟨hplace.function, hwalk, hplace.block_mem, hreachable, fun hmem => ?_⟩
    simp [Function.unreachableLabels, hreachable] at hmem
  case calls => exact ⟨Graph.nodup_walk _ root, fun name => mem_walk_callGraph⟩

/-- A function with a loop, and with a block that no branch leads to. -/
def looping : Function where
  name := "looping"
  ret := .void
  params := []
  attributes := []
  blocks := [⟨"entry", [.branch "loop"]⟩, ⟨"loop", [.branchIf (.int 0) "loop" "last"]⟩,
    ⟨"dead", [.branch "last"]⟩, ⟨"last", [.ret none]⟩]

def detourMain : Function where
  name := "main"
  ret := .void
  params := []
  attributes := [.flag "entry_point", .keyValue "required_num_qubits" "0",
    .keyValue "required_num_results" "0"]
  blocks := [⟨"entry", [.call none .void "looping" [], .ret none]⟩]

def detour : Module where
  name := "detour"
  source := none
  opaqueTypes := []
  globals := []
  functions := [detourMain, looping]

theorem graphs_cover_detour : detour.verify = .ok () ∧
    ∃ operations machine frame, Machine.Reaches detour .standard (.start detourMain none)
        operations machine ∧ frame ∈ machine.frames ∧ frame.function = looping ∧
      frame.block.label = "last" ∧ "last" ∈ looping.reachableLabels ∧
      "dead" ∉ looping.reachableLabels ∧ "looping" ∈ detour.callGraph.walk "main" ∧
      "main" ∉ detour.callGraph.walk "looping" := by
  have hverify : detour.verify = .ok () := rfl
  have hprepare := prepare_of_verify hverify rfl (by decide) none
  have hreaches : ∃ operations machine frame, Machine.Reaches detour .standard
      (.start detourMain none) operations machine ∧ frame ∈ machine.frames ∧
      frame.function = looping ∧ frame.block.label = "last" :=
    ⟨_, _, _, .step rfl (.step rfl (.step rfl (.refl _))), List.mem_cons_self, rfl, rfl⟩
  obtain ⟨operations, machine, frame, hreaches, hframe, hfunction, hlabel⟩ := hreaches
  obtain ⟨hruns, hlabels, hcalls⟩ := graphs_cover_runs detour
  obtain ⟨-, hwalk, -, hlast, -⟩ := hruns hverify .standard none none detourMain _ _ _ rfl hprepare
    hreaches frame hframe
  rw [hfunction] at hwalk hlast
  rw [hlabel] at hlast
  refine ⟨hverify, operations, machine, frame, hreaches, hframe, hfunction, hlabel, hlast, ?dead,
    hwalk, ?back⟩
  case dead =>
    rw [hlabels looping (by decide)]
    rintro ⟨first, hfirst, hpath⟩
    cases hfirst
    have hnone : ∀ block ∈ looping.blocks, ∀ terminator ∈ block.terminator?,
        "dead" ∉ terminator.successors := by decide
    rcases hpath.cases_tail with heq | ⟨_, -, -, block, hblock, -, terminator, hends, hmem⟩
    · simp at heq
    · exact hnone block hblock terminator hends hmem
  case back =>
    rw [(hcalls "looping").2]
    rintro ⟨-, hpath⟩
    have hnone : ∀ function ∈ detour.functions, ∀ instruction ∈ function.instructions,
        instruction.callee? ≠ some "main" := by decide
    rcases hpath.cases_tail with heq | ⟨_, -, function, hfunction, -, instruction, hmem, hcallee⟩
    · simp at heq
    · exact hnone function hfunction instruction hmem hcallee

end Module

end QuantumIR
