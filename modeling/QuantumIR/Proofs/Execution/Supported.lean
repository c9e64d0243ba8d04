import QuantumIR.Proofs.Execution.Causes
import QuantumIR.Proofs.Execution.Stops
import QuantumIR.Proofs.Verified.Starting

/-!
The check before the first instruction. Calls lead from name to name, and a run stays within what
its entry point can come to call. So a run that starts never meets a function that is neither
defined nor in the catalog: an evaluation reports such functions before it hands on any operation,
or not at all.
-/

namespace QuantumIR

open Machine Verification

namespace Module

variable {module : Module} {limits : Limits} {entryPoint : Option String}
  {stream : Option (List Bool)} {entry : Function} {root name : String} {names : List String}

/-- Some function of one name calls another name. Functions that share a name are not told apart,
and what is called need not be in the module. -/
def Calls (module : Module) (caller callee : String) : Prop :=
  ∃ function ∈ module.functions, function.name = caller ∧
    ∃ instruction ∈ function.instructions, instruction.callee? = some callee

instance (module : Module) (caller callee : String) : Decidable (module.Calls caller callee) :=
  inferInstanceAs (Decidable (∃ function ∈ module.functions, function.name = caller ∧
    ∃ instruction ∈ function.instructions, instruction.callee? = some callee))

/-- Calls, one after the other, lead from one name to another, which may be the same. -/
def CanCall (module : Module) : String → String → Prop :=
  Relation.ReflTransGen module.Calls

/-- The name of a function that has no body, whether it is declared or not even that, and no place
in the catalog. -/
def Unsupported (module : Module) (name : String) : Prop :=
  ((∃ function ∈ module.declarations, function.name = name) ∨ module.function? name = none) ∧
    Intrinsic.ofName? name = none

instance (module : Module) (name : String) : Decidable (module.Unsupported name) :=
  inferInstanceAs (Decidable (((∃ function ∈ module.declarations, function.name = name) ∨
    module.function? name = none) ∧ Intrinsic.ofName? name = none))

theorem unsupported_of_definition? (hdefinition : module.definition? name = none)
    (hname : Intrinsic.ofName? name = none) : module.Unsupported name := by
  refine ⟨?_, hname⟩
  cases hfunction : module.function? name with
  | none => exact Or.inr rfl
  | some function =>
    rw [definition?, hfunction, Option.filter_eq_none_iff] at hdefinition
    have hbody : function.isDeclaration = true := by simpa using hdefinition function rfl
    have hmem : function ∈ module.declarations :=
      List.mem_filter.mpr ⟨List.mem_of_find?_eq_some hfunction, hbody⟩
    have hfound : function.name = name := by simpa using List.find?_some hfunction
    exact Or.inl ⟨function, hmem, hfound⟩

/-- A module has a function of a name, or calls one. -/
def Mentions (module : Module) (name : String) : Prop :=
  name ∈ module.functions.map Function.name ∨ ∃ caller, module.Calls caller name

theorem mem_callGraph_nodes_iff : name ∈ module.callGraph.nodes ↔ module.Mentions name := by
  rw [callGraph, List.mem_eraseDups, List.mem_append, Mentions]
  refine or_congr_right ?_
  simp only [List.mem_map, Prod.exists, exists_eq_right, mem_calls, Calls]

/-- A walk over the calls of a module from a name that the module mentions meets what calls lead to
from there. -/
theorem mem_walk_callGraph :
    name ∈ module.callGraph.walk root ↔ module.Mentions root ∧ module.CanCall root name := by
  have hleads : module.callGraph.Leads [] = module.Calls := by
    funext caller callee
    rw [Graph.Leads, Graph.Free, mem_callGraph_nodes_iff, Calls, ← mem_calls]
    refine propext (and_iff_left_of_imp fun hcall => ⟨?_, List.not_mem_nil⟩)
    exact Or.inr ⟨caller, mem_calls.mp hcall⟩
  rw [Graph.mem_walk_iff, Graph.Reaches, Graph.ReachesFree, hleads, Graph.Free,
    mem_callGraph_nodes_iff, and_iff_left List.not_mem_nil, CanCall]

/-- A walk over the calls of a module from one of its functions meets what it can come to call. -/
theorem mem_walk_callGraph_iff (hroot : root ∈ module.functions.map Function.name) :
    name ∈ module.callGraph.walk root ↔ module.CanCall root name := by
  rw [mem_walk_callGraph]
  exact and_iff_right (Or.inl hroot)

/-- What is reported as unsupported is what can come to be called and is unsupported. -/
theorem mem_unsupportedFrom_iff (hroot : root ∈ module.functions.map Function.name) :
    name ∈ module.unsupportedFrom root ↔ module.CanCall root name ∧ module.Unsupported name := by
  simp only [← mem_walk_callGraph_iff hroot, unsupportedFrom, Unsupported, List.mem_append,
    List.mem_mergeSort, List.mem_filter, List.mem_map, Bool.and_eq_true, decide_eq_true_eq,
    Option.isNone_iff_eq_none]
  constructor
  · rintro (⟨hdeclared, hwalk, hname⟩ | ⟨hwalk, hmissing, hname⟩)
    · exact ⟨hwalk, Or.inl hdeclared, hname⟩
    · exact ⟨hwalk, Or.inr hmissing, hname⟩
  · rintro ⟨hwalk, hdeclared | hmissing, hname⟩
    · exact Or.inl ⟨hdeclared, hwalk, hname⟩
    · exact Or.inr ⟨hwalk, hmissing, hname⟩

theorem name_of_definition? {function : Function} (h : module.definition? name = some function) :
    function.name = name := by
  obtain ⟨hfunction, -⟩ := Option.filter_eq_some_iff.mp h
  simpa using List.find?_some hfunction

theorem mem_functions_of_resolveEntry (h : module.resolveEntry entryPoint = .ok entry) :
    entry ∈ module.functions := by
  cases entryPoint with
  | some name =>
    rw [resolveEntry.eq_def] at h
    dsimp only at h
    split at h
    · next hfound =>
      cases h
      exact List.mem_of_mem_filter (mem_of_definition? hfound)
    · cases h
  | none =>
    rw [resolveEntry.eq_def] at h
    dsimp only at h
    split at h
    · next hfound =>
      cases h
      obtain ⟨hentry, -⟩ := Option.filter_eq_some_iff.mp hfound
      have hmem : entry ∈ module.entryPoints := by
        rw [entryPoint?] at hentry
        split at hentry
        · next hmarked =>
          cases hentry
          rw [hmarked]
          exact List.mem_singleton_self entry
        · cases hentry
      exact List.mem_of_mem_filter hmem
    · cases h

theorem isDeclaration_of_resolveEntry (h : module.resolveEntry entryPoint = .ok entry) :
    entry.isDeclaration = false := by
  have hbody : ∀ function? : Option Function,
      function?.filter (fun function => !function.isDeclaration) = some entry →
        entry.isDeclaration = false :=
    fun _ hfound => by simpa using (Option.filter_eq_some_iff.mp hfound).2
  rw [resolveEntry.eq_def] at h
  split at h
  all_goals
    split at h
    · next hfound =>
      cases h
      exact hbody _ hfound
    · cases h

theorem mem_names_of_resolveEntry (h : module.resolveEntry entryPoint = .ok entry) :
    entry.name ∈ module.functions.map Function.name :=
  List.mem_map_of_mem (mem_functions_of_resolveEntry h)

theorem exists_fault_of_resolveEntry {error : EvalError}
    (h : module.resolveEntry entryPoint = .error error) :
    ∃ fault, error = .entryPointNotFound fault := by
  rw [resolveEntry.eq_def] at h
  split at h <;> split at h <;> cases h <;> exact ⟨_, rfl⟩

/-- An evaluation does not start because of unsupported functions exactly if its entry point can
come to call some. -/
theorem prepare_eq_unsupported_iff :
    module.prepare entryPoint stream = .error (.unsupported names) ↔
      ∃ entry, module.resolveEntry entryPoint = .ok entry ∧ names ≠ [] ∧
        module.unsupportedFrom entry.name = names := by
  constructor
  · intro h
    rcases bind_eq_error h with hentry | ⟨entry, hentry, h⟩
    · obtain ⟨fault, hfault⟩ := exists_fault_of_resolveEntry hentry
      cases hfault
    · refine ⟨entry, hentry, ?_⟩
      split at h
      · cases h
      · next hne =>
        cases h
        exact ⟨hne, rfl⟩
  · rintro ⟨entry, hentry, hne, rfl⟩
    rw [prepare, hentry]
    dsimp only [bind, Except.bind]
    split
    · next hnil => exact absurd hnil hne
    · rfl

end Module

namespace Frame

variable {module : Module} {root : String} {frame other : Frame}

/-- A frame whose function can come to be called from a function of a given name. What is left of
its block belongs to its function. -/
structure CalledFrom (module : Module) (root : String) (frame : Frame) : Prop where
  function : frame.function ∈ module.functions
  called : module.CanCall root frame.function.name
  rest : frame.rest ⊆ frame.function.instructions

namespace CalledFrom

theorem congr (h : frame.CalledFrom module root) (hfunction : other.function = frame.function)
    (hrest : other.rest ⊆ frame.rest) : other.CalledFrom module root where
  function := hfunction ▸ h.function
  called := hfunction ▸ h.called
  rest := hfunction ▸ List.Subset.trans hrest h.rest

theorem bindResult (h : frame.CalledFrom module root) (name : Option String)
    (datum : Option Datum) : (frame.bindResult name datum).CalledFrom module root := by
  have hrest : (frame.bindResult name datum).rest ⊆ frame.rest := by simp
  exact h.congr (function_bindResult name datum frame) hrest

theorem enter {function : Function} (hfunction : function ∈ module.functions)
    (hcalled : module.CanCall root function.name) (args : List Datum) (returnTo : Option String) :
    (Frame.enter function args returnTo).CalledFrom module root where
  function := hfunction
  called := hcalled
  rest := by
    intro instruction hinstruction
    change instruction ∈ (function.blocks.headD ⟨"", []⟩).instructions at hinstruction
    change instruction ∈ function.instructions
    cases hblocks : function.blocks with
    | nil =>
      rw [hblocks] at hinstruction
      cases hinstruction
    | cons block blocks =>
      rw [hblocks] at hinstruction
      rw [Function.instructions, hblocks]
      exact List.mem_flatMap.mpr ⟨block, List.mem_cons_self, hinstruction⟩

theorem jump (h : frame.CalledFrom module root) {label : String}
    (hjump : frame.jump label = .ok other) : other.CalledFrom module root := by
  obtain ⟨block, hblock, rfl⟩ := Machine.jump_eq_ok_iff.mp hjump
  have hrest : block.instructions ⊆ frame.function.instructions := fun instruction hmem =>
    List.mem_flatMap.mpr ⟨block, List.mem_of_find?_eq_some hblock, hmem⟩
  exact ⟨h.function, h.called, hrest⟩

/-- What a frame is about to call can come to be called. -/
theorem canCall (h : frame.CalledFrom module root) {instruction : Instruction}
    {rest : List Instruction} {callee : String} (hrest : frame.rest = instruction :: rest)
    (hcallee : instruction.callee? = some callee) : module.CanCall root callee := by
  have hmem := h.rest (hrest ▸ List.mem_cons_self)
  exact h.called.tail ⟨frame.function, h.function, rfl, instruction, hmem, hcallee⟩

end CalledFrom

end Frame

namespace Machine

variable {module : Module} {limits : Limits} {root : String} {start machine next : Machine}
  {history : List CatalogCall}

/-- Whether all functions that are active in a machine can come to be called from a function of a
given name. -/
def CalledFrom (module : Module) (root : String) (machine : Machine) : Prop :=
  ∀ frame ∈ machine.frames, frame.CalledFrom module root

/-- A step enters no function but one that a call leads to. -/
theorem Steps.calledFrom {call : Option CatalogCall} (h : machine.CalledFrom module root)
    (hsteps : Steps module limits machine call next) : next.CalledFrom module root := by
  cases hsteps with
  | @execute frame callers _ _ instruction rest _ _ hrest _ hexecutes =>
    obtain ⟨hframe, hcallers⟩ := List.forall_mem_cons.mp h
    have hadvance : Frame.CalledFrom module root { frame with rest } :=
      hframe.congr rfl (hrest ▸ List.subset_cons_self instruction rest)
    cases hexecutes with
    | compute => exact List.forall_mem_cons.mpr ⟨hadvance.congr rfl (List.Subset.refl _), hcallers⟩
    | jump _ hjump => exact List.forall_mem_cons.mpr ⟨hadvance.jump hjump, hcallers⟩
    | enter _ hfunction _ =>
      have hmem := List.mem_of_mem_filter (Module.mem_of_definition? hfunction)
      have hcall := hframe.canCall hrest rfl
      rw [← Module.name_of_definition? hfunction] at hcall
      refine List.forall_mem_cons.mpr ⟨.enter hmem hcall _ _, ?_⟩
      exact List.forall_mem_cons.mpr ⟨hadvance, hcallers⟩
    | leave => exact forall_mem_leave hcallers fun _ hcaller => hcaller.bindResult _ _
    | perform => exact List.forall_mem_cons.mpr ⟨hadvance.bindResult _ _, hcallers⟩

/-- A run stays within what its entry point can come to call. -/
theorem Runs.calledFrom {entry : Function} {stream : Option (List Bool)}
    (hentry : entry ∈ module.functions)
    (h : Runs module limits (.start entry stream) history machine) :
    machine.CalledFrom module entry.name := by
  refine h.preserves ?_ fun _ _ _ hcalled hsteps => hsteps.calledFrom hcalled
  exact List.forall_mem_singleton.mpr (.enter hentry .refl [] none)

end Machine

namespace Module

variable {module : Module} {limits : Limits} {entryPoint : Option String}
  {stream : Option (List Bool)} {entry : Function} {root : String} {names : List String}
  {operations : List Operation}

theorem pairwise_lt_mergeSort (h : names.Nodup) :
    (names.mergeSort fun a b => decide (a ≤ b)).Pairwise (· < ·) := by
  have hsorted : (names.mergeSort fun a b => decide (a ≤ b)).Pairwise
      fun a b => decide (a ≤ b) = true :=
    List.pairwise_mergeSort (by simpa using fun a b c => le_trans) (by simpa using le_total) names
  have hnodup := (List.mergeSort_perm names fun a b => decide (a ≤ b)).nodup_iff.mpr h
  exact hsorted.imp₂ (fun a b hle hne => lt_of_le_of_ne (of_decide_eq_true hle) hne) hnodup

/-- Unsupported functions are reported in the order of the text as far as they are declared, then by
name. -/
theorem exists_unsupportedFrom_eq (module : Module) (root : String) :
    ∃ declared undeclared, module.unsupportedFrom root = declared ++ undeclared ∧
      declared.Sublist (module.functions.map Function.name) ∧
      (∀ name ∈ undeclared, name ∉ module.functions.map Function.name) ∧
      undeclared.Pairwise (· < ·) := by
  refine ⟨_, _, rfl, List.filter_sublist.trans (List.filter_sublist.map Function.name), ?_, ?_⟩
  · intro name hname hmem
    rw [List.mem_mergeSort, List.mem_filter, Bool.and_eq_true, Option.isNone_iff_eq_none] at hname
    obtain ⟨function, hfunction, heq⟩ := List.mem_map.mp hmem
    have hnone := List.find?_eq_none.mp hname.2.1 function hfunction
    simp [heq] at hnone
  · apply pairwise_lt_mergeSort
    exact (Graph.nodup_walk _ _).filter _

theorem nodup_unsupportedFrom (hnames : (module.functions.map Function.name).Nodup)
    (root : String) : (module.unsupportedFrom root).Nodup := by
  obtain ⟨declared, undeclared, heq, hdeclared, hundeclared, hsorted⟩ :=
    exists_unsupportedFrom_eq module root
  rw [heq, List.nodup_append']
  refine ⟨hdeclared.nodup hnames, hsorted.imp ne_of_lt, ?_⟩
  exact fun name hname hagain => hundeclared name hagain (hdeclared.subset hname)

/-- A run that starts meets no unsupported function. -/
theorem unsupportedFrom_ne_nil {last : Machine} (hentry : entry ∈ module.functions)
    (hreaches : Reaches module limits (.start entry stream) operations last)
    (hlast : last.outcome? module limits = some (.error (.unsupported names))) :
    module.unsupportedFrom entry.name ≠ [] := by
  obtain ⟨history, hruns, rfl⟩ := reaches_iff_runs.mp hreaches
  have hcalled := hruns.calledFrom hentry
  obtain ⟨frames, state⟩ := last
  cases frames with
  | nil => cases hlast
  | cons frame callers =>
    rw [outcome?] at hlast
    split at hlast
    · next error hstep =>
      cases hlast
      cases fails_of_step hstep with
      | atHand hlocal => exact hlocal.elim
      | unsupported hrest hcallee hdefinition hname =>
        -- What is called here the entry point can come to call, so the check has seen it.
        have hcan := (hcalled frame List.mem_cons_self).canCall hrest hcallee
        have hmem := (mem_unsupportedFrom_iff (List.mem_map_of_mem hentry)).mpr
          ⟨hcan, unsupported_of_definition? hdefinition hname⟩
        exact List.ne_nil_of_mem hmem
    · cases hlast

/-- Unsupported functions are what an evaluation stops with exactly if it does not start because of
them. -/
theorem stops_unsupported_iff :
    module.Stops limits entryPoint stream operations (.error (.unsupported names)) ↔
      operations = [] ∧ ∃ entry, module.resolveEntry entryPoint = .ok entry ∧ names ≠ [] ∧
        module.unsupportedFrom entry.name = names := by
  constructor
  · intro h
    rcases h.cases with ⟨error, hprepare, rfl, herror⟩ | ⟨start, last, hprepare, hreaches, hlast⟩
    · cases herror
      exact ⟨rfl, prepare_eq_unsupported_iff.mp hprepare⟩
    · obtain ⟨entry, hentry, hnone, rfl⟩ := prepare_eq_ok_iff.mp hprepare
      have hmem := mem_functions_of_resolveEntry hentry
      exact absurd hnone (unsupportedFrom_ne_nil hmem hreaches hlast)
  · rintro ⟨rfl, hentry⟩
    exact stops_of_prepare (prepare_eq_unsupported_iff.mpr hentry)

/-- An evaluation fails because of unsupported functions exactly if there is an entry point and it
can come to call some. It then hands on nothing, and reports just these functions: those of the
module in the order of the text, then the others by name. Whatever its outcome is, an observer sees
the operations that the evaluation hands on, and is told of the end after them if it is a success.
-/
theorem unsupported_or_observed (module : Module) (limits : Limits) (entryPoint : Option String)
    (stream : Option (List Bool)) :
    ((∃ operations names,
        module.Stops limits entryPoint stream operations (.error (.unsupported names))) ↔
      ∃ entry, module.resolveEntry entryPoint = .ok entry ∧
        ∃ name, module.CanCall entry.name name ∧ module.Unsupported name) ∧
    (∀ operations names,
      module.Stops limits entryPoint stream operations (.error (.unsupported names)) →
        operations = [] ∧ ∃ entry declared undeclared,
          module.resolveEntry entryPoint = .ok entry ∧ names = declared ++ undeclared ∧
          declared.Sublist (module.functions.map Function.name) ∧
          (∀ name ∈ undeclared, name ∉ module.functions.map Function.name) ∧
          undeclared.Pairwise (· < ·) ∧
          (∀ name, name ∈ names ↔ module.CanCall entry.name name ∧ module.Unsupported name) ∧
          ((module.functions.map Function.name).Nodup → names.Nodup)) ∧
    ∀ (σ : Type) (observer : Observer σ) (seen : σ) outcome final,
      module.evaluate? limits observer entryPoint stream seen = some (outcome, final) →
        ∃ operations, module.Stops limits entryPoint stream operations outcome ∧
          (∀ metadata, outcome = .ok metadata →
            final = observer.finish metadata (observer.watch operations seen)) ∧
          ∀ error, outcome = .error error → final = observer.watch operations seen := by
  refine ⟨⟨?_, ?_⟩, ?_, ?_⟩
  · rintro ⟨operations, names, h⟩
    obtain ⟨-, entry, hentry, hne, rfl⟩ := stops_unsupported_iff.mp h
    obtain ⟨name, hname⟩ := List.exists_mem_of_ne_nil _ hne
    have hroot := mem_names_of_resolveEntry hentry
    exact ⟨entry, hentry, name, (mem_unsupportedFrom_iff hroot).mp hname⟩
  · rintro ⟨entry, hentry, name, hname⟩
    have hroot := mem_names_of_resolveEntry hentry
    have hne := List.ne_nil_of_mem ((mem_unsupportedFrom_iff hroot).mpr hname)
    exact ⟨[], _, stops_unsupported_iff.mpr ⟨rfl, entry, hentry, hne, rfl⟩⟩
  · intro operations names h
    obtain ⟨rfl, entry, hentry, -, rfl⟩ := stops_unsupported_iff.mp h
    have hroot := mem_names_of_resolveEntry hentry
    obtain ⟨declared, undeclared, heq, hdeclared, hundeclared, hsorted⟩ :=
      exists_unsupportedFrom_eq module entry.name
    refine ⟨rfl, entry, declared, undeclared, hentry, heq, hdeclared, hundeclared, hsorted, ?_, ?_⟩
    · exact fun name => mem_unsupportedFrom_iff hroot
    · intro hnames
      rw [heq, List.nodup_append']
      refine ⟨hdeclared.nodup hnames, hsorted.imp ne_of_lt, ?_⟩
      exact fun name hname hagain => hundeclared name hagain (hdeclared.subset hname)
  · intro σ observer seen outcome final h
    obtain ⟨operations, hstops, rfl⟩ := exists_stops h
    refine ⟨operations, hstops, ?_, ?_⟩
    · rintro metadata rfl
      rfl
    · rintro error rfl
      rfl

/-- Calls from a block that control never enters: an instruction of the catalog, a declared function
and one that is not even that. -/
def patchy : Module where
  name := "patchy"
  source := none
  opaqueTypes := ["Qubit"]
  globals := []
  functions := [
    { name := "main", ret := .void, params := [], attributes := [.flag "entry_point"]
      blocks := [⟨"entry", [.call none .void "helper" [], .ret none]⟩] },
    { name := "helper", ret := .void, params := [], attributes := []
      blocks := [⟨"entry", [.ret none]⟩, ⟨"dead", [
        .call none .void "__quantum__qis__h__body" [.qubit 0],
        .call none .void "missing" [], .call none .void "outside" [], .ret none]⟩] },
    Function.declaration "__quantum__qis__h__body" [.qubit] .void,
    Function.declaration "outside" [] .void]

theorem unsupported_patchy : ∃ names,
    patchy.Stops .standard none none [] (.error (.unsupported names)) ∧ "outside" ∈ names ∧
      "missing" ∈ names ∧ "__quantum__qis__h__body" ∉ names ∧ names.Nodup ∧
      ∃ final, patchy.evaluate? .standard .trace none none #[] =
        some (.error (.unsupported names), final) ∧ final = #[] := by
  obtain ⟨hiff, hlist, hobserved⟩ :=
    unsupported_or_observed patchy .standard none none
  have hhelper : patchy.Calls "main" "helper" := by decide
  have hcan : ∀ callee, patchy.Calls "helper" callee → patchy.CanCall "main" callee :=
    fun callee hcall => .tail (.single hhelper) hcall
  have houtside : patchy.CanCall "main" "outside" ∧ patchy.Unsupported "outside" :=
    ⟨hcan _ (by decide), by decide⟩
  have hmissing : patchy.CanCall "main" "missing" ∧ patchy.Unsupported "missing" :=
    ⟨hcan _ (by decide), by decide⟩
  obtain ⟨operations, names, hstops⟩ := hiff.mpr ⟨_, rfl, _, houtside⟩
  obtain ⟨rfl, entry, declared, undeclared, hentry, -, -, -, -, hmem, hnodup⟩ := hlist _ _ hstops
  cases hentry
  obtain ⟨dispatched, hstops', -, hfinal⟩ := hobserved _ _ _ _ _ (hstops _ .trace #[])
  obtain ⟨rfl, -⟩ := hstops'.unique hstops
  refine ⟨names, hstops, (hmem _).mpr houtside, (hmem _).mpr hmissing, ?_, hnodup (by decide), _,
    hstops _ .trace #[], hfinal _ rfl⟩
  intro hcatalog
  exact absurd ((hmem _).mp hcatalog).2.2 (by decide)

end Module

end QuantumIR
