import QuantumIR.Proofs.Building.Invariant
import QuantumIR.Proofs.Verified.Rules

/-!
Finished modules. The entry function has the blocks that were built, with values numbered in their
order; a module that any session ends with keeps the rules about names, blocks and calls.
-/

namespace QuantumIR

open Builder

namespace Instruction

variable (f : String → String) (g : Value → Value) (instruction : Instruction)

@[simp]
theorem isTerminator_mapResult : (instruction.mapResult f).isTerminator = instruction.isTerminator := by
  cases instruction <;> rfl

@[simp]
theorem isTerminator_mapValues : (instruction.mapValues g).isTerminator = instruction.isTerminator := by
  cases instruction <;> rfl

@[simp]
theorem successors_mapResult : (instruction.mapResult f).successors = instruction.successors := by
  cases instruction <;> rfl

@[simp]
theorem successors_mapValues : (instruction.mapValues g).successors = instruction.successors := by
  cases instruction <;> rfl

@[simp]
theorem result?_mapResult : (instruction.mapResult f).result? = instruction.result?.map f := by
  cases instruction <;> rfl

@[simp]
theorem result?_mapValues : (instruction.mapValues g).result? = instruction.result? := by
  cases instruction <;> rfl

@[simp]
theorem types_mapResult : (instruction.mapResult f).types = instruction.types := by
  cases instruction <;> rfl

@[simp]
theorem types_mapValues : (instruction.mapValues g).types = instruction.types := by
  cases instruction with
  | call result ret callee args =>
    simp [mapValues, types, operands, List.filterMap_map, Function.comp_def]
  | ret operand => cases operand <;> rfl
  | _ => rfl

end Instruction

namespace Builder

/-- An instruction with new names for values. -/
def renumbered (names : Bindings String String) (instruction : Instruction) : Instruction :=
  (instruction.mapResult (rename names)).mapValues (renameValue names)

/-- The entry function of a finished module. -/
def entry (builder : Builder) : Function :=
  { name := entryName, ret := .void, params := [], blocks := renumber builder.blocks
    attributes := builder.entryAttributes }

/-- The module that a builder gives when it is finished. -/
def finished (builder : Builder) : Module :=
  { name := builder.name, source := some builder.name, opaqueTypes := ["Qubit", "Result"]
    globals := builder.globals, functions := builder.entry :: builder.declarations }

theorem finish_eq_ok {builder : Builder} {module : Module} (h : builder.finish = .ok module) :
    (∀ block ∈ builder.blocks, block.terminator?.isSome) ∧ module = builder.finished := by
  rw [finish] at h
  cases hfind : builder.blocks.find? fun block => block.terminator?.isNone with
  | some block =>
    rw [hfind] at h
    cases h
  | none =>
    rw [hfind] at h
    cases h
    refine ⟨?_, rfl⟩
    intro block hblock
    exact Option.isSome_iff_ne_none.mpr (by simpa using List.find?_eq_none.mp hfind block hblock)

theorem finish_of_terminated {builder : Builder}
    (h : builder.blocks.all fun block => block.terminator?.isSome) :
    builder.finish = .ok builder.finished := by
  rw [finish, List.find?_eq_none.mpr]
  · rfl
  · intro block hblock
    have hsome : block.terminator?.isSome := List.all_eq_true.mp h block hblock
    rw [Option.isNone_eq_false_iff.mpr hsome]
    exact Bool.false_ne_true

variable {builder : Builder}

/-- The names that are bound, in the order of the blocks. -/
def boundNames (blocks : List Block) : List String :=
  (blocks.flatMap Block.instructions).filterMap Instruction.result?

theorem boundNames_eq (blocks : List Block) :
    boundNames blocks = blocks.flatMap fun block => block.instructions.filterMap Instruction.result? :=
  List.filterMap_flatMap

theorem numbering_eq (blocks : List Block) : numbering blocks =
    (boundNames blocks).zipIdx.map fun (name, number) => (name, toString number) := by
  rw [boundNames_eq, numbering]

theorem renumber_eq (blocks : List Block) : renumber blocks = blocks.map fun block =>
    { block with instructions := block.instructions.map (renumbered (numbering blocks)) } :=
  rfl

theorem instructions_renumber (blocks : List Block) :
    (renumber blocks).flatMap Block.instructions =
      (blocks.flatMap Block.instructions).map (renumbered (numbering blocks)) := by
  rw [renumber_eq, List.flatMap_map, List.map_flatMap]

theorem labels_renumber (blocks : List Block) :
    (renumber blocks).map Block.label = blocks.map Block.label := by
  rw [renumber_eq, List.map_map]
  rfl

/-- A name is looked up in a list of distinct names with their places. -/
theorem get?_zipIdx {names : List String} (h : names.Nodup) (start place : Nat)
    (hplace : place < names.length) :
    Bindings.get? names[place] ((names.zipIdx start).map fun (name, number) =>
      (name, toString number)) = some (toString (start + place)) := by
  induction names generalizing start place with
  | nil => exact absurd hplace (Nat.not_lt_zero place)
  | cons name rest ih =>
    obtain ⟨hnew, hrest⟩ := List.nodup_cons.mp h
    rw [List.zipIdx_cons, List.map_cons, Bindings.get?]
    cases place with
    | zero => rw [List.getElem_cons_zero, if_pos rfl, Nat.add_zero]
    | succ place =>
      have hlt : place < rest.length := Nat.lt_of_succ_lt_succ hplace
      rw [List.getElem_cons_succ, if_neg, ih hrest (start + 1) place hlt]
      · congr 2
        omega
      · intro heq
        exact hnew (heq ▸ List.getElem_mem hlt)

/-- Each bound name gets the number of its place among the bound names. -/
theorem rename_numbering {blocks : List Block} (h : (boundNames blocks).Nodup) {place : Nat}
    (hplace : place < (boundNames blocks).length) :
    rename (numbering blocks) (boundNames blocks)[place] = toString place := by
  rw [rename, numbering_eq, get?_zipIdx h 0 place hplace, Option.getD_some, Nat.zero_add]

/-- Values are numbered in the order of the blocks. -/
theorem boundNames_renumber {blocks : List Block} (h : (boundNames blocks).Nodup) :
    boundNames (renumber blocks) = (List.range (boundNames blocks).length).map toString := by
  have hrenamed : boundNames (renumber blocks) =
      (boundNames blocks).map (rename (numbering blocks)) := by
    rw [boundNames, instructions_renumber, List.filterMap_map, boundNames, List.map_filterMap]
    congr 1
    funext instruction
    simp [renumbered]
  rw [hrenamed]
  apply List.ext_getElem
  · simp
  · intro place hplace _
    rw [List.length_map] at hplace
    rw [List.getElem_map, List.getElem_map, List.getElem_range, rename_numbering h hplace]

variable {additions : Additions}

theorem isDeclaration_of_declared (h : builder.Sound additions) {function : Function}
    (hfunction : function ∈ builder.declarations) : function.isDeclaration = true := by
  obtain ⟨name, signature, rfl, -⟩ := h.declarations function hfunction
  rfl

/-- A declaration is no entry point. -/
theorem isEntryPoint_of_declared (h : builder.Sound additions) {function : Function}
    (hfunction : function ∈ builder.declarations) : function.isEntryPoint = false := by
  obtain ⟨name, signature, rfl, -⟩ := h.declarations function hfunction
  rw [declarationOf, Function.isEntryPoint]
  split
  · rfl
  · rfl

theorem isEntryPoint_entry (builder : Builder) : builder.entry.isEntryPoint = true := rfl

theorem entryPoints_finished (h : builder.Sound additions) :
    builder.finished.entryPoints = [builder.entry] := by
  rw [Module.entryPoints, finished, List.filter_cons_of_pos builder.isEntryPoint_entry]
  congr 1
  rw [List.filter_eq_nil_iff]
  intro function hfunction
  rw [isEntryPoint_of_declared h hfunction]
  exact Bool.false_ne_true

theorem isDeclaration_entry (h : builder.Sound additions) :
    builder.entry.isDeclaration = false := by
  have hblocks : builder.blocks ≠ [] := by
    intro hnil
    have hcurrent := h.current
    rw [labels, hnil] at hcurrent
    exact List.not_mem_nil hcurrent
  rw [Function.isDeclaration, entry, List.isEmpty_eq_false_iff, renumber_eq]
  simpa using hblocks

theorem definitions_finished (h : builder.Sound additions) :
    builder.finished.definitions = [builder.entry] := by
  have hentry := isDeclaration_entry h
  rw [Module.definitions, finished, List.filter_cons_of_pos (by simp [hentry])]
  congr 1
  rw [List.filter_eq_nil_iff]
  intro function hfunction
  simp [isDeclaration_of_declared h hfunction]

theorem names_finished (h : builder.Sound additions) :
    (builder.finished.functions.map Function.name).Nodup := by
  rw [finished, List.map_cons, List.nodup_cons]
  refine ⟨?_, h.names⟩
  intro hmem
  obtain ⟨function, hfunction, hname⟩ := List.mem_map.mp hmem
  obtain ⟨name, signature, rfl, hne, -⟩ := h.declarations function hfunction
  exact hne hname

/-- A declared function is found by its name. -/
theorem function?_finished (h : builder.Sound additions) {function : Function}
    (hfunction : function ∈ builder.declarations) :
    builder.finished.function? function.name = some function := by
  have hmem : function ∈ builder.finished.functions := List.mem_cons_of_mem _ hfunction
  cases hfind : builder.finished.function? function.name with
  | none => exact absurd (List.find?_eq_none.mp hfind function hmem) (by simp)
  | some found =>
    have hname : found.name = function.name := by simpa using List.find?_some hfind
    rw [List.inj_on_of_nodup_map (names_finished h) (List.mem_of_find?_eq_some hfind) hmem hname]

/-- What a call passes has the types of the parameters. -/
def Instruction.PassesTypes (module : Module) : Instruction → Prop
  | .call _ _ callee args => ∃ target, module.function? callee = some target ∧
      target.params.map Param.ty = args.map Operand.ty
  | _ => True

theorem passesTypes_of_stands (h : builder.Sound additions) {instruction : Instruction}
    (hstands : builder.Stands instruction) (names : Bindings String String) :
    Instruction.PassesTypes builder.finished (renumbered names instruction) := by
  cases instruction with
  | call result ret callee args =>
    obtain ⟨-, -, known, hknown, rfl, -, htypes⟩ := hstands
    refine ⟨known, function?_finished h hknown, ?_⟩
    rw [htypes, List.map_map]
    rfl
  | _ => trivial

theorem callsIn_of_passesTypes {module : Module} {instruction : Instruction}
    (h : Instruction.PassesTypes module instruction) : instruction.CallsIn module := by
  cases instruction with
  | call result ret callee args =>
    obtain ⟨target, htarget, htypes⟩ := h
    have hlength := congrArg List.length htypes
    rw [List.length_map, List.length_map] at hlength
    exact ⟨target, htarget, hlength⟩
  | _ => trivial

/-- A terminated block ends with its only terminator. -/
theorem terminates_of_terminator {block : Block} {labels : List String}
    (hsome : block.terminator?.isSome)
    (hbefore : ∀ instruction ∈ block.instructions.dropLast, instruction.isTerminator = false)
    (htargets : ∀ instruction ∈ block.instructions, ∀ target ∈ instruction.successors,
      target ∈ labels) : block.Terminates labels := by
  obtain ⟨last, hlast⟩ := Option.isSome_iff_exists.mp hsome
  rw [Block.terminator?, Option.filter_eq_some_iff] at hlast
  obtain ⟨hlast, hterminator⟩ := hlast
  have hsplit := List.dropLast_append_getLast? last hlast
  have hmem : last ∈ block.instructions := List.mem_of_getLast? hlast
  exact ⟨_, last, hsplit.symm, hterminator, hbefore, htargets last hmem⟩

theorem Block.Terminates.renumbered {block : Block} {labels : List String} (h : block.Terminates labels)
    (names : Bindings String String) :
    Block.Terminates labels { block with instructions := block.instructions.map (renumbered names) } := by
  obtain ⟨body, last, hinstructions, hterminator, hbody, htargets⟩ := h
  refine ⟨body.map (Builder.renumbered names), Builder.renumbered names last, ?_, ?_, ?_, ?_⟩
  · simp [hinstructions]
  · simpa [Builder.renumbered] using hterminator
  · intro instruction hmem
    obtain ⟨old, hold, rfl⟩ := List.mem_map.mp hmem
    simpa [Builder.renumbered] using hbody old hold
  · simpa [Builder.renumbered] using htargets

theorem successors_of_stands {instruction : Instruction} (h : builder.Stands instruction) :
    ∀ target ∈ instruction.successors, target ∈ builder.labels := by
  cases instruction with
  | branch target =>
    rintro _ hmem
    rw [List.mem_singleton.mp hmem]
    exact h
  | branchIf condition onTrue onFalse =>
    simp only [Instruction.successors, List.forall_mem_cons]
    exact ⟨h.1, h.2, fun _ hnil => absurd hnil List.not_mem_nil⟩
  | _ => simp [Instruction.successors]

theorem wellFormed_entry (h : builder.Sound additions)
    (hterminated : ∀ block ∈ builder.blocks, block.terminator?.isSome) :
    builder.entry.WellFormed builder.finished where
  labels := by
    rw [entry, labels_renumber]
    exact h.labels
  blocks := by
    rw [entry, labels_renumber]
    intro block hblock
    rw [renumber_eq] at hblock
    obtain ⟨old, hold, rfl⟩ := List.mem_map.mp hblock
    refine Block.Terminates.renumbered (terminates_of_terminator (hterminated old hold)
      (h.terminators old hold) ?_) _
    intro instruction hmem
    exact successors_of_stands (h.stands instruction (List.mem_flatMap.mpr ⟨old, hold, hmem⟩))
  assignments := by
    have hnames : builder.entry.boundNames = boundNames (renumber builder.blocks) := rfl
    rw [hnames, boundNames_renumber h.results]
    exact List.nodup_range.map fun _ _ h => Nat.repr_injective h
  calls := by
    rw [Function.instructions, entry, instructions_renumber]
    intro instruction hmem
    obtain ⟨old, hold, rfl⟩ := List.mem_map.mp hmem
    exact callsIn_of_passesTypes (passesTypes_of_stands h (h.stands old hold) _)

/-- A finished module keeps the rules about names, blocks and calls. -/
theorem structured_finished (h : builder.Sound additions)
    (hterminated : ∀ block ∈ builder.blocks, block.terminator?.isSome)
    (hqubits : builder.qubitCount < UInt64.size) (hresults : builder.resultCount < UInt64.size) :
    builder.finished.Structured builder.entry builder.qubitCount builder.resultCount where
  functions := names_finished h
  entryPoints := entryPoints_finished h
  body := isDeclaration_entry h
  qubitCount := Text.count?_toString hqubits
  resultCount := Text.count?_toString hresults
  definitions := by
    rw [definitions_finished h]
    intro function hfunction
    rw [List.mem_singleton.mp hfunction]
    exact wellFormed_entry h hterminated

theorem nodup_globals (h : builder.Sound additions) :
    (builder.globals.map GlobalString.name).Nodup := by
  rw [h.globals]
  exact List.nodup_range.map fun _ _ heq => Nat.repr_injective heq

theorem global?_finished (h : builder.Sound additions) {global : GlobalString}
    (hmem : global ∈ builder.globals) : builder.finished.global? global.name = some global := by
  cases hfind : builder.finished.global? global.name with
  | none => exact absurd (List.find?_eq_none.mp hfind global hmem) (by simp)
  | some found =>
    have hname : found.name = global.name := by simpa using List.find?_some hfind
    rw [List.inj_on_of_nodup_map (nodup_globals h) (List.mem_of_find?_eq_some hfind) hmem hname]

/-- The functions of a finished module pass what their callees expect. -/
theorem passesTypes_finished (h : builder.Sound additions) :
    ∀ function ∈ builder.finished.functions, ∀ instruction ∈ function.instructions,
      Instruction.PassesTypes builder.finished instruction := by
  intro function hfunction instruction hmem
  rcases List.mem_cons.mp hfunction with rfl | hdeclared
  · rw [Function.instructions, entry, instructions_renumber] at hmem
    obtain ⟨old, hold, rfl⟩ := List.mem_map.mp hmem
    exact passesTypes_of_stands h (h.stands old hold) _
  · have hnone : function.blocks = [] := by
      simpa [Function.isDeclaration] using isDeclaration_of_declared h hdeclared
    rw [Function.instructions, hnone] at hmem
    exact absurd hmem List.not_mem_nil

theorem counts_create {name : String} {qubits results : Int64}
    (h : create name qubits.toInt results.toInt = .ok builder) :
    builder.qubitCount < UInt64.size ∧ builder.resultCount < UInt64.size := by
  have hsize : UInt64.size = 2 ^ 64 := rfl
  have hqubits := qubits.toInt_lt
  have hresults := results.toInt_lt
  rw [create] at h
  split at h
  · cases h
  · split at h
    · cases h
    · cases h
      dsimp only
      omega

theorem within_any (step : BuildStep) : step.Within .any := by
  cases step <;> simp [BuildStep.Within, BuildStep.CallsWithin, BuildStep.BranchesWithin,
    Additions.any]

theorem later_of_session {first last : Builder} (h : Session BuildStep.Any first last) :
    Later .any first last :=
  h.later fun step _ => within_any step

/-- What any session leaves is sound. -/
theorem sound_of_session {name : String} {qubits results : Int} {first last : Builder}
    {steps : BuildStep → Prop} (hcreate : create name qubits results = .ok first)
    (h : Session steps first last) (hsteps : ∀ step, steps step → step.Within additions) :
    last.Sound additions :=
  (sound_create hcreate).run (h.later hsteps)

/-- However a module was built, it keeps the rules about names, blocks and calls, its calls pass
what their callees expect, and the strings that were added are found in it. -/
theorem structured_of_finish {name : String} {qubits results : Int64} {first last : Builder}
    {module : Module} (hcreate : create name qubits.toInt results.toInt = .ok first)
    (hsession : Session BuildStep.Any first last) (hfinish : last.finish = .ok module) :
    (∃ entry, module.Structured entry first.qubitCount first.resultCount) ∧
    (∀ violation, module.verify = .error violation →
      violation.rule = .integerWidth ∨ violation.rule = .operandRange) ∧
    (∀ function ∈ module.functions, ∀ instruction ∈ function.instructions,
      Instruction.PassesTypes module instruction) ∧
    ∀ (text : String) (middle : Builder) (value : Value), Session BuildStep.Any first middle →
      middle.answer (Building.addString text) = .ok value →
      Session BuildStep.Any (middle.after (Building.addString text)) last →
      ∃ global, value = .firstByte global.name (UInt64.ofNat global.bytes.length) ∧
        module.global? global.name = some global ∧
        global.bytes = Text.utf8 text.toList ++ [0] := by
  obtain ⟨hterminated, rfl⟩ := finish_eq_ok hfinish
  have hany : ∀ step, BuildStep.Any step → step.Within .any := fun step _ => within_any step
  have hsound : last.Sound .any := sound_of_session hcreate hsession hany
  have hextends := (hsession.later hany).extends
  obtain ⟨hqubits, hresults⟩ := counts_create hcreate
  have hstructured := structured_finished hsound hterminated
    (hextends.qubitCount ▸ hqubits) (hextends.resultCount ▸ hresults)
  refine ⟨⟨last.entry, ?_⟩, ?_, passesTypes_finished hsound, ?_⟩
  · rw [← hextends.qubitCount, ← hextends.resultCount]
    exact hstructured
  · exact fun violation => hstructured.rule_of_verify
  · intro text middle value _ hanswer hrest
    cases Except.ok.inj hanswer
    have hmem := (hrest.later hany).extends.globals.subset
      (List.mem_append_right middle.globals (List.mem_singleton_self _))
    exact ⟨_, rfl, global?_finished hsound hmem, rfl⟩

/-- A new builder for one qubit and one result. -/
def small : Builder :=
  { name := "small", qubitCount := 1, resultCount := 1, blocks := [⟨"entry", []⟩]
    current := "entry", declarations := [], globals := [], nextValue := 0 }

/-- A label, a call, two blocks and a step that fails, because its block is closed already. -/
def labelledSteps : List BuildStep :=
  [.record .int (.int 3) (some "count"), .call "next" .i64 [⟨.i64, .int 1⟩], .appendBlock "entry",
    .branch "entry1", .ret, .position "entry1", .ret]

/-- What these steps make of a builder. -/
def labelled : Builder := ((BuildStep.runAll labelledSteps).run small).2

theorem structured_labelled :
    create "small" (1 : Int64).toInt (1 : Int64).toInt = .ok small ∧
    Session BuildStep.Any small labelled ∧ labelled.finish = .ok labelled.finished ∧
    ∃ entry, labelled.finished.Structured entry 1 1 := by
  have hcreate : create "small" (1 : Int64).toInt (1 : Int64).toInt = .ok small := by rfl
  have hsession : Session BuildStep.Any small labelled :=
    BuildStep.session_runAll labelledSteps small
  have hfinish : labelled.finish = .ok labelled.finished :=
    finish_of_terminated (by decide +kernel)
  exact ⟨hcreate, hsession, hfinish, (structured_of_finish hcreate hsession hfinish).1⟩

end Builder

end QuantumIR
