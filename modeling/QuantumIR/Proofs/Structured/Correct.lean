import QuantumIR.Proofs.Execution.Stops
import QuantumIR.Proofs.Graph.Walk
import QuantumIR.Proofs.Structured.Compiles

/-!
From a structured program to the run of its module. Building never fails, the module is complete,
and its run ends as the direct interpretation of the program does.
-/

namespace QuantumIR

open Builder Building

variable {α : Type} {additions : Additions} {builder later last : Builder} {qubits results : Nat}

namespace Compiles

variable {meaning : Option (List Bool) → Interpreting Unit}

/-- What a builder answers does not matter to what was built. -/
theorem map {action : Building α} (h : Compiles qubits results action meaning) {β : Type}
    (f : α → β) : Compiles qubits results (do return f (← action)) meaning := by
  intro builder hready
  obtain ⟨a, later, hdoes, hcode⟩ := h builder hready
  exact ⟨f a, later, hdoes.bind (.pure (f a) later), hcode⟩

theorem get_bind {next : Builder → Building α}
    (h : ∀ builder, Compiles qubits results (next builder) meaning) :
    Compiles qubits results (get >>= next) meaning := by
  intro builder hready
  obtain ⟨a, later, hdoes, hcode⟩ := h builder builder hready
  exact ⟨a, later, (does_get builder).bind hdoes, hcode⟩

end Compiles

namespace Statement

mutual

/-- A statement is compiled to code that does what the statement means. -/
theorem compiles_step (hcounted : Counted qubits results) (statement : Statement)
    (h : statement.InRange qubits results) :
    Compiles qubits results statement.step.run fun stream => statement.interpret stream := by
  match statement with
  | .perform operation =>
    have hperform := compiles_perform hcounted operation h
    simp only [interpret]
    cases operation with
    | rotatePair axis theta a b =>
      rw [step, BuildStep.run]
      exact hperform.map _
    | _ =>
      rw [step, BuildStep.run]
      · exact hperform.map _
      · simp
  | .record result label =>
    rw [step, BuildStep.run]
    simp only [interpret]
    exact (compiles_record hcounted h label).map _
  | .ifResult result onOne onZero =>
    rw [step, BuildStep.run]
    simp only [interpret]
    exact (compiles_ifResult hcounted h.1 (compiles_steps hcounted onOne h.2.1)
      (compiles_steps hcounted onZero h.2.2)).map _

/-- A program is compiled statement by statement. -/
theorem compiles_steps (hcounted : Counted qubits results) (program : List Statement)
    (h : AllInRange qubits results program) :
    Compiles qubits results (BuildStep.runBody (steps program)) fun stream =>
      interpretAll stream program := by
  match program with
  | [] =>
    rw [steps, BuildStep.runBody]
    simp only [interpretAll]
    exact .pure _
  | statement :: rest =>
    rw [steps, BuildStep.runBody]
    simp only [interpretAll]
    refine (compiles_step hcounted statement h.1).bind fun reply => .get_bind fun _ => ?_
    exact (compiles_steps hcounted rest h.2).map _

end

/-- Building a program: its statements one after the other, and a return. -/
def build (program : List Statement) : Building (List (Reply × String)) := do
  let answers ← BuildStep.runBody (steps program)
  Building.ret
  return answers

end Statement

namespace Builder

/-- A new builder has one open block. -/
theorem ready_create {name : String} {qubits results : Int}
    (h : create name qubits results = .ok builder) :
    builder.Ready builder.qubitCount builder.resultCount ∧ builder.labels = [entryLabel] ∧
      builder.current = entryLabel ∧ builder.code entryLabel = [] := by
  have hsound : builder.Sound .catalog := sound_create h
  rw [create] at h
  split at h
  · cases h
  · split at h
    · cases h
    · cases h
      exact ⟨⟨hsound, isOpen_of_code_eq_nil rfl, rfl, rfl⟩, rfl, rfl, rfl⟩

theorem counted_create {name : String} {qubits results : Int64}
    (h : create name qubits.toInt results.toInt = .ok builder) :
    Counted builder.qubitCount builder.resultCount := by
  have hqubits := qubits.toInt_lt
  have hresults := results.toInt_lt
  rw [create] at h
  split at h
  · cases h
  · split at h
    · cases h
    · cases h
      constructor
      · dsimp only
        omega
      · dsimp only
        omega

/-- A builder whose blocks are all closed is finished. -/
theorem finish_of_closed (hlabels : builder.labels.Nodup)
    (h : ∀ label ∈ builder.labels, ¬builder.IsOpen label) :
    builder.finish = .ok builder.finished := by
  apply finish_of_terminated
  rw [List.all_eq_true]
  intro block hblock
  have hclosed := h block.label (List.mem_map_of_mem hblock)
  rw [IsOpen, code_of_mem hlabels hblock] at hclosed
  push Not at hclosed
  obtain ⟨instruction, hlast, hterminator⟩ := hclosed
  rw [Block.terminator?, Option.mem_def.mp hlast]
  simp [hterminator]

/-- What a module calls is a function of the module. -/
theorem isSome_function?_of_calls (h : builder.Sound additions) {call : String × String}
    (hcall : call ∈ builder.finished.calls) : (builder.finished.function? call.2).isSome := by
  rw [Module.calls, List.mem_eraseDups] at hcall
  obtain ⟨function, hfunction, hcall⟩ := List.mem_flatMap.mp hcall
  obtain ⟨callee, hcallee, rfl⟩ := List.mem_map.mp hcall
  obtain ⟨instruction, hinstruction, hcallee⟩ := List.mem_filterMap.mp hcallee
  have hpasses := passesTypes_finished h function hfunction instruction hinstruction
  cases instruction with
  | call result ret name args =>
    cases hcallee
    obtain ⟨target, htarget, -⟩ := hpasses
    exact Option.isSome_of_mem htarget
  | _ => cases hcallee

/-- All nodes of the call graph are functions of the module. -/
theorem isSome_function?_of_nodes (h : builder.Sound additions) {name : String}
    (hname : name ∈ builder.finished.callGraph.nodes) :
    (builder.finished.function? name).isSome := by
  rw [Module.callGraph, List.mem_eraseDups, List.mem_append] at hname
  rcases hname with hname | hname
  · obtain ⟨function, hfunction, rfl⟩ := List.mem_map.mp hname
    rw [Module.function?, List.find?_isSome]
    exact ⟨function, hfunction, by simp⟩
  · obtain ⟨call, hcall, rfl⟩ := List.mem_map.mp hname
    exact isSome_function?_of_calls h hcall

/-- What is declared is in the catalog. -/
theorem isNone_ofName?_of_declared (h : builder.Sound .catalog) {function : Function}
    (hfunction : function ∈ builder.finished.declarations) :
    (Intrinsic.ofName? function.name).isNone = false := by
  obtain ⟨hmem, hdeclaration⟩ := List.mem_filter.mp hfunction
  rcases List.mem_cons.mp hmem with rfl | hdeclared
  · rw [isDeclaration_entry h] at hdeclaration
    cases hdeclaration
  · obtain ⟨name, signature, rfl, -, callee, rfl, rfl⟩ := h.declarations function hdeclared
    have hfound : Intrinsic.ofName? (declarationOf callee.name callee.signature).name =
        some callee := callee.ofName?_name
    rw [hfound]
    rfl

/-- All that a function can come to call is in the catalog or has a body. -/
theorem unsupportedFrom_finished (h : builder.Sound .catalog) (root : String) :
    builder.finished.unsupportedFrom root = [] := by
  have hdeclared : (builder.finished.declarations.map Function.name).filter (fun name =>
      decide (name ∈ builder.finished.callGraph.walk root) && (Intrinsic.ofName? name).isNone) =
      [] := by
    rw [List.filter_eq_nil_iff]
    intro name hname
    obtain ⟨function, hfunction, rfl⟩ := List.mem_map.mp hname
    rw [isNone_ofName?_of_declared h hfunction, Bool.and_false]
    exact Bool.false_ne_true
  have hmissing : (builder.finished.callGraph.walk root).filter (fun name =>
      (builder.finished.function? name).isNone && (Intrinsic.ofName? name).isNone) = [] := by
    rw [List.filter_eq_nil_iff]
    intro name hname
    have hsome := isSome_function?_of_nodes h (Graph.mem_nodes_of_mem_walk hname)
    rw [Option.isNone_eq_false_iff.mpr hsome, Bool.false_and]
    exact Bool.false_ne_true
  rw [Module.unsupportedFrom]
  simp only [hdeclared, hmissing, List.mergeSort_nil, List.append_nil]

/-- A run of a finished module starts at the start of its first block. -/
theorem prepare_finished (h : last.Sound .catalog) (stream : Option (List Bool)) :
    last.finished.prepare none stream = .ok (.start last.entry stream) := by
  have hresolve : last.finished.resolveEntry none = .ok last.entry := by
    have hbody : (!last.entry.isDeclaration) = true := by rw [isDeclaration_entry h]; rfl
    rw [Module.resolveEntry, Module.entryPoint?, entryPoints_finished h]
    simp only [Option.filter_some, hbody, if_true]
  have hsupported := unsupportedFrom_finished h last.entry.name
  rw [Module.prepare, hresolve]
  dsimp only [bind, Except.bind]
  rw [hsupported]
  rfl

/-- The first frame of a run stands at the start of the first block. -/
theorem at_enter {rest : List String} (hlabels : last.labels = builder.current :: rest)
    (hcode : builder.code builder.current = []) :
    (Frame.enter last.entry [] none).At last builder := by
  refine ⟨rfl, ?_⟩
  cases hblocks : last.blocks with
  | nil =>
    rw [labels, hblocks] at hlabels
    cases hlabels
  | cons block blocks =>
    rw [labels, hblocks, List.map_cons, List.cons.injEq] at hlabels
    have hfinal : last.finalCode builder.current =
        block.instructions.map (renumbered (numbering last.blocks)) := by
      rw [finalCode, code, block?, hblocks, List.find?_cons_of_pos (by simp [hlabels.1])]
      rfl
    have hstart : (Frame.enter last.entry [] none).rest =
        ((renumber last.blocks).headD ⟨"", []⟩).instructions := rfl
    rw [hfinal, hcode, hstart, renumber_eq, hblocks]
    rfl

end Builder

/-- A run ends as a direct interpretation does: the observer saw the same operations, and there are
the same measurements and the same output, whose labels are shown up to their first zero character,
or there is the same error. -/
def EndsLike {σ : Type} (observer : Observer σ) (seen : σ)
    (run : Option (Except EvalError RunMetadata × σ)) : Except EvalError Unit × Ledger → Prop
  | (.ok (), ledger) => ∃ metadata,
      run = some (.ok metadata, observer.finish metadata (observer.watch ledger.operations seen)) ∧
        metadata.measurements = ledger.measurements ∧
        metadata.output = ledger.output.map OutputRecord.shown ∧
        metadata.consumed = ledger.position
  | (.error error, ledger) => run = some (.error error, observer.watch ledger.operations seen)

/-- A return from the entry point is the end of a run. -/
theorem follows_ret {limits : Limits} {stream : Option (List Bool)} {machine : Machine}
    {outcome : Except EvalError Unit × Ledger} {σ : Type} (observer : Observer σ) (seen : σ)
    (hsteps : limits.steps = none) (happends : Appends additions builder (.ret none) last)
    (h : Follows last limits stream machine [] (fun _ next => next.At last builder) outcome) :
    EndsLike observer seen (machine.run last.finished limits observer seen) outcome := by
  obtain ⟨error | _, ledger⟩ := outcome
  · obtain ⟨operations, stopped, hreaches, hstopped, hoperations⟩ := h
    rw [List.nil_append] at hoperations
    rw [EndsLike, hreaches.run_eq hstopped seen, hoperations]
    rfl
  · obtain ⟨operations, frame, state, hreaches, hat, hagrees, hoperations⟩ := h
    rw [List.nil_append] at hoperations
    obtain ⟨rest, hrest, -⟩ := hat.next happends .refl
    have hlast := hreaches.trans (.step (Machine.step_ret hsteps hrest) (.refl _))
    rw [Option.toList_none, List.append_nil, List.append_nil, ← hoperations] at hlast
    exact ⟨_, hlast.run_eq rfl seen, hagrees.measurements, hagrees.output, hagrees.consumed⟩

/-- Nothing is known and nothing has happened at the start of a run. -/
theorem Ledger.agrees_start (entry : Function) (stream : Option (List Bool)) :
    Ledger.empty.Agrees stream (.start entry stream) := by
  refine ⟨?_, rfl, rfl, rfl, rfl⟩
  cases stream <;> rfl

/-- Compiled code and a return make a module whose run ends as what the code was compiled from
does. -/
theorem Compiles.exists_ends {name : String} {qubits results : Int64} {first : Builder}
    {action : Building α} {meaning : Option (List Bool) → Interpreting Unit}
    (hcreate : create name qubits.toInt results.toInt = .ok first)
    (h : Compiles first.qubitCount first.resultCount action meaning) :
    ∃ a later last, Does action first a later ∧ Does Building.ret later () last ∧
      last.finish = .ok last.finished ∧
      ∀ (σ : Type) (limits : Limits) (observer : Observer σ) (stream : Option (List Bool))
        (seen : σ), limits.steps = none →
        EndsLike observer seen (last.finished.evaluate? limits observer none stream seen)
          ((meaning stream).run.run Ledger.empty) := by
  obtain ⟨hready, hlabels, hcurrent, hnil⟩ := ready_create hcreate
  obtain ⟨a, later, hdoes, hcontinues, hsimulates⟩ := h first hready
  obtain ⟨hret, happends⟩ := appends_push (hready.continues hcontinues) (.ret none) rfl rfl
  have hlater : Later .catalog first _ := hcontinues.changes.trans happends.changes
  have hsound := hready.sound.run hlater
  -- Only the block that is left open can be the last one, and the return closes it.
  have hclosed : ∀ label ∈ (later.append (.ret none)).labels,
      ¬(later.append (.ret none)).IsOpen label := by
    intro label hlabel hopen
    by_cases hlast : label = later.current
    · subst hlast
      rw [isOpen_of_code_eq_concat ((happends.code _).trans (if_pos rfl))] at hopen
      cases hopen
    · rw [isOpen_congr ((happends.code label).trans (if_neg hlast))] at hopen
      rw [happends.labels] at hlabel
      rcases hcontinues.closed label hlabel hopen with hlabel | ⟨hlabel, hne⟩
      · exact hlast hlabel
      · rw [hlabels, List.mem_singleton, ← hcurrent] at hlabel
        exact hne hlabel
  refine ⟨a, later, later.append (.ret none), hdoes, hret,
    finish_of_closed hsound.labels hclosed, ?_⟩
  intro σ limits observer stream seen hsteps
  rw [Module.evaluate?, prepare_finished hsound]
  apply follows_ret observer seen hsteps happends
  obtain ⟨rest, hrest⟩ := hlater.labels_prefix
  rw [hlabels, ← hcurrent] at hrest
  rw [← hcurrent] at hnil
  exact hsimulates _ limits stream _ _ Ledger.empty happends.changes hsound hsteps
    (at_enter hrest.symm hnil) (Ledger.agrees_start _ stream)

/-- A run that ends as a direct interpretation without a failure hands on the operations of the
interpretation, and succeeds. -/
theorem stops_of_endsLike {module : Module} {limits : Limits} {stream : Option (List Bool)}
    {ledger : Ledger}
    (h : EndsLike Observer.trace #[] (module.evaluate? limits .trace none stream #[])
      (.ok (), ledger)) :
    ∃ metadata, module.Stops limits none stream ledger.operations (.ok metadata) ∧
      metadata.output = ledger.output.map OutputRecord.shown ∧
      metadata.consumed = ledger.position := by
  obtain ⟨metadata, hrun, -, houtput, hconsumed⟩ := h
  obtain ⟨operations, hstops, hseen⟩ := Module.exists_stops hrun
  have htrace := congrArg Array.toList hseen
  change (Observer.trace.watch ledger.operations #[]).toList =
    (Observer.trace.watch operations #[]).toList at htrace
  rw [Observer.toList_watch_trace, Observer.toList_watch_trace] at htrace
  have hsame : ledger.operations = operations := htrace
  rw [hsame]
  exact ⟨metadata, hstops, houtput, hconsumed⟩

namespace Statement

/-- Building a program whose qubits and results exist gives a module whose run ends as the direct
interpretation of the program does. -/
theorem does_build {name : String} {qubits results : Int64} {first : Builder}
    {program : List Statement}
    (hcreate : create name qubits.toInt results.toInt = .ok first)
    (hrange : AllInRange first.qubitCount first.resultCount program) :
    ∃ answers last, (build program).Does first answers last ∧
      last.finish = .ok last.finished ∧
      ∀ (σ : Type) (limits : Limits) (observer : Observer σ) (stream : Option (List Bool))
        (seen : σ), limits.steps = none →
        EndsLike observer seen (last.finished.evaluate? limits observer none stream seen)
          ((interpretAll stream program).run.run Ledger.empty) := by
  obtain ⟨answers, later, last, hdoes, hret, hends⟩ :=
    (compiles_steps (counted_create hcreate) program hrange).exists_ends hcreate
  exact ⟨answers, last, hdoes.bind (hret.bind (.pure answers last)), hends⟩

/-- Structured programs are compiled correctly: building a program whose qubits and results exist
never fails, and whatever the stream of outcomes, the run of the finished module ends as the direct
interpretation of the program does. -/
theorem evaluate_build {name : String} {qubits results : Int64} {first : Builder}
    {program : List Statement}
    (hcreate : create name qubits.toInt results.toInt = .ok first)
    (hrange : AllInRange first.qubitCount first.resultCount program) :
    ∃ answers module, first.answer (build program) = .ok answers ∧
      (first.after (build program)).finish = .ok module ∧
      ∀ (σ : Type) (limits : Limits) (observer : Observer σ) (stream : Option (List Bool))
        (seen : σ), limits.steps = none →
        EndsLike observer seen (module.evaluate? limits observer none stream seen)
          ((interpretAll stream program).run.run Ledger.empty) := by
  obtain ⟨answers, last, hdoes, hfinish, hends⟩ := does_build hcreate hrange
  refine ⟨answers, last.finished, hdoes.answer, ?_, hends⟩
  rw [hdoes.after, hfinish]

/-- A new builder for two qubits and two results. -/
def pair : Builder := ⟨"pair", 2, 2, [⟨entryLabel, []⟩], entryLabel, [], [], 0⟩

/-- A branch in a branch. The second result is never measured. -/
def nested : List Statement :=
  [.perform (.measureInto 0 0),
    .ifResult 0 [.ifResult 1 [.perform (.reset 0)] [.perform (.swap 0 1)]] [],
    .record 1 (some "second")]

theorem evaluate_nested :
    create "pair" (2 : Int64).toInt (2 : Int64).toInt = .ok pair ∧
    AllInRange pair.qubitCount pair.resultCount nested ∧
    ∃ answers module, pair.answer (build nested) = .ok answers ∧
      (pair.after (build nested)).finish = .ok module ∧
      (∃ metadata, module.evaluate? .standard .trace none (some [true, false]) #[] =
          some (.ok metadata, #[.measureInto 0 0, .swap 0 1]) ∧
        metadata.output = [⟨.result false, some "second"⟩]) ∧
      module.evaluate? .standard .trace none (some [true]) #[] =
        some (.error (.streamExhausted 1), #[.measureInto 0 0]) := by
  have hcreate : create "pair" (2 : Int64).toInt (2 : Int64).toInt = .ok pair := rfl
  have hrange : AllInRange pair.qubitCount pair.resultCount nested := by
    have hmeasure : (Operation.measureInto 0 0).InRange 2 2 := ⟨by decide, by decide, by decide⟩
    have hreset : (Operation.reset 0).InRange 2 2 := ⟨by decide, by decide, by decide⟩
    have hswap : (Operation.swap 0 1).InRange 2 2 := ⟨by decide, by decide, by decide⟩
    simp [AllInRange, InRange, nested, pair, hmeasure, hreset, hswap]
  obtain ⟨answers, module, hanswer, hfinish, hends⟩ := evaluate_build hcreate hrange
  refine ⟨hcreate, hrange, answers, module, hanswer, hfinish, ?_, ?_⟩
  · obtain ⟨metadata, hrun, -, houtput, -⟩ := hends _ .standard .trace (some [true, false]) #[] rfl
    exact ⟨metadata, hrun, houtput⟩
  · exact hends _ .standard .trace (some [true]) #[] rfl

/-- A program that records a result under a label with a zero character in it. -/
def zeroLabelled : List Statement := [.record 0 (some "a\x00b")]

/-- The run shows less of the label than the direct interpretation does. -/
theorem output_zeroLabelled :
    create "pair" (2 : Int64).toInt (2 : Int64).toInt = .ok pair ∧
    AllInRange pair.qubitCount pair.resultCount zeroLabelled ∧
    ∃ module metadata, (pair.after (build zeroLabelled)).finish = .ok module ∧
      module.evaluate? .standard .trace none none #[] = some (.ok metadata, #[]) ∧
      metadata.output ≠ ((interpretAll none zeroLabelled).run.run Ledger.empty).2.output := by
  have hcreate : create "pair" (2 : Int64).toInt (2 : Int64).toInt = .ok pair := rfl
  have hrange : AllInRange pair.qubitCount pair.resultCount zeroLabelled :=
    ⟨Nat.two_pos, trivial⟩
  obtain ⟨answers, last, hdoes, hfinish, hends⟩ := does_build hcreate hrange
  obtain ⟨metadata, hrun, -, houtput, -⟩ := hends _ .standard .trace none #[] rfl
  refine ⟨hcreate, hrange, last.finished, metadata, ?_, hrun, ?_⟩
  · rw [hdoes.after, hfinish]
  · rw [houtput]
    decide +kernel

end Statement

end QuantumIR
