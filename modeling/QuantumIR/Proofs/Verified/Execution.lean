import QuantumIR.Proofs.Execution.Reaches
import QuantumIR.Proofs.Verified.Faults

/-!
Verified modules run without structural faults. Every frame of a run stands before an instruction
of a block of a defined function; each step keeps this, and a step from there reports none of the
errors that verification is to rule out.
-/

namespace QuantumIR

/-- A frame stands before an instruction of a block of a function that a module defines. -/
structure Frame.Placed (module : Module) (frame : Frame) : Prop where
  function : frame.function ∈ module.definitions
  block : ∃ place : Nat, frame.function.blocks[place]? = some frame.block
  rest : ∃ place : Nat, place < frame.block.instructions.length ∧
    frame.rest = frame.block.instructions.drop place

variable {module : Module} {entry : Function} {qubits results : Nat}

theorem Block.Terminates.instructions_ne_nil {labels : List String} {block : Block}
    (h : block.Terminates labels) : block.instructions ≠ [] := by
  obtain ⟨body, last, heq, -⟩ := h
  rw [heq]
  exact List.append_ne_nil_of_right_ne_nil body (List.cons_ne_nil last [])

/-- Only terminators end a block. -/
theorem Block.Terminates.length_lt {labels : List String} {block : Block} (h : block.Terminates labels)
    {place : Nat} {instruction : Instruction} (hplace : block.instructions[place]? = some instruction)
    (hinstruction : instruction.isTerminator = false) : place + 1 < block.instructions.length := by
  obtain ⟨body, last, heq, hlast, -⟩ := h
  rw [heq] at hplace ⊢
  have hlt := (List.getElem?_eq_some_iff.mp hplace).1
  rw [List.length_append, List.length_singleton] at hlt ⊢
  by_contra hge
  obtain rfl : place = body.length := by omega
  rw [List.getElem?_concat_length] at hplace
  cases hplace
  rw [hlast] at hinstruction
  cases hinstruction

theorem Instruction.ty_mem_types {result : Option String} {ret : Ty} {callee : String}
    {args : List Operand} {arg : Operand} (h : arg ∈ args) :
    arg.ty ∈ (call result ret callee args).types := by
  simp only [types, operands, List.mem_append, List.mem_filterMap]
  exact Or.inr ⟨_, List.mem_map_of_mem h, rfl⟩

namespace Module.Verified

theorem wellFormed (h : module.Verified entry qubits results) {frame : Frame}
    (hframe : frame.function ∈ module.definitions) : frame.function.WellFormed module :=
  h.definitions frame.function hframe

theorem supported (h : module.Verified entry qubits results) {function : Function}
    (hfunction : function ∈ module.definitions) {instruction : Instruction}
    (hinstruction : instruction ∈ function.instructions) : ∀ ty ∈ instruction.types, ty.Supported := by
  intro ty hty
  apply h.widths function (List.mem_of_mem_filter hfunction)
  rw [Function.types, List.mem_append]
  exact Or.inr (List.mem_flatMap.mpr ⟨instruction, hinstruction, hty⟩)

theorem entry_mem (h : module.Verified entry qubits results) : entry ∈ module.definitions := by
  have hentry : entry ∈ module.entryPoints := by
    rw [h.entryPoints]
    exact List.mem_singleton_self entry
  exact List.mem_filter.mpr ⟨List.mem_of_mem_filter hentry, by simp [h.body]⟩

end Module.Verified

theorem Module.mem_of_definition? {name : String} {function : Function}
    (h : module.definition? name = some function) : function ∈ module.definitions := by
  obtain ⟨hfunction, hbody⟩ := Option.filter_eq_some_iff.mp h
  exact List.mem_filter.mpr ⟨List.mem_of_find?_eq_some hfunction, hbody⟩

/-- A verified call of a defined function passes one argument for each parameter. -/
theorem Instruction.CallsIn.length_eq {result : Option String} {ret : Ty} {callee : String}
    {args : List Operand} (h : (call result ret callee args).CallsIn module) {target : Function}
    (htarget : module.definition? callee = some target) : args.length = target.params.length := by
  obtain ⟨found, hfound, hlength⟩ := h
  obtain ⟨hfunction, -⟩ := Option.filter_eq_some_iff.mp htarget
  rw [hfound] at hfunction
  cases hfunction
  exact hlength.symm

namespace Frame

theorem Placed.block_mem {frame : Frame} (h : frame.Placed module) :
    frame.block ∈ frame.function.blocks := by
  obtain ⟨place, hplace⟩ := h.block
  exact List.mem_of_getElem? hplace

theorem Placed.rest_ne_nil {frame : Frame} (h : frame.Placed module) : frame.rest ≠ [] := by
  obtain ⟨place, hlt, hrest⟩ := h.rest
  rw [hrest, ne_eq, List.drop_eq_nil_iff]
  omega

theorem Placed.mem_block {frame : Frame} (h : frame.Placed module) {instruction : Instruction}
    {rest : List Instruction} (hrest : frame.rest = instruction :: rest) :
    instruction ∈ frame.block.instructions := by
  obtain ⟨place, -, hplace⟩ := h.rest
  apply List.mem_of_mem_drop (i := place)
  rw [← hplace, hrest]
  exact List.mem_cons_self

theorem Placed.mem_instructions {frame : Frame} (h : frame.Placed module)
    {instruction : Instruction} {rest : List Instruction}
    (hrest : frame.rest = instruction :: rest) : instruction ∈ frame.function.instructions :=
  List.mem_flatMap.mpr ⟨frame.block, h.block_mem, h.mem_block hrest⟩

/-- Registers and the place to return to do not move a frame. -/
theorem Placed.congr {frame other : Frame} (h : frame.Placed module)
    (hfunction : other.function = frame.function) (hblock : other.block = frame.block)
    (hrest : other.rest = frame.rest) : other.Placed module := by
  obtain ⟨hfunction', hblock', hrest'⟩ := h
  exact ⟨hfunction ▸ hfunction', by rwa [hfunction, hblock], by rwa [hblock, hrest]⟩

theorem Placed.bindResult {frame : Frame} (h : frame.Placed module) (name : Option String)
    (datum : Option Datum) : (frame.bindResult name datum).Placed module :=
  h.congr (function_bindResult name datum frame) (block_bindResult name datum frame)
    (rest_bindResult name datum frame)

/-- A frame at the start of a block of its function. -/
theorem placed_start (h : module.Verified entry qubits results) {frame : Frame}
    (hfunction : frame.function ∈ module.definitions) (hblock : frame.block ∈ frame.function.blocks)
    (hrest : frame.rest = frame.block.instructions) : frame.Placed module := by
  have hterminates := (h.wellFormed hfunction).blocks frame.block hblock
  refine ⟨hfunction, List.mem_iff_getElem?.mp hblock, 0, ?_, hrest⟩
  exact List.length_pos_iff.mpr hterminates.instructions_ne_nil

theorem placed_enter (h : module.Verified entry qubits results) {function : Function}
    (hfunction : function ∈ module.definitions) (args : List Datum) (returnTo : Option String) :
    (Frame.enter function args returnTo).Placed module := by
  refine placed_start h hfunction ?_ rfl
  have hbody : function.blocks ≠ [] := by
    simpa [Function.isDeclaration] using (List.mem_filter.mp hfunction).2
  cases hblocks : function.blocks with
  | nil => exact absurd hblocks hbody
  | cons block blocks =>
    change function.blocks.headD ⟨"", []⟩ ∈ function.blocks
    rw [hblocks]
    exact List.mem_cons_self

/-- An instruction that ends no block is followed by another one. -/
theorem Placed.advance (h : module.Verified entry qubits results) {frame : Frame}
    (hframe : frame.Placed module) {instruction : Instruction} {rest : List Instruction}
    (hrest : frame.rest = instruction :: rest) (hinstruction : instruction.isTerminator = false) :
    Placed module { frame with rest } := by
  have hterminates := (h.wellFormed hframe.function).blocks frame.block hframe.block_mem
  obtain ⟨place, -, hplace⟩ := hframe.rest
  have hat : frame.block.instructions[place]? = some instruction := by
    rw [← List.head?_drop, ← hplace, hrest]
    rfl
  refine ⟨hframe.function, hframe.block, place + 1, hterminates.length_lt hat hinstruction, ?_⟩
  rw [← List.drop_drop, ← hplace, hrest]
  rfl

/-- A jump to a block of the function leads there. -/
theorem exists_jump (h : module.Verified entry qubits results) {frame : Frame}
    (hfunction : frame.function ∈ module.definitions) {label : String}
    (hlabel : label ∈ frame.function.blocks.map Block.label) :
    ∃ next, frame.jump label = .ok next ∧ next.Placed module := by
  rw [jump]
  cases hblock : frame.function.block? label with
  | none =>
    exact absurd hlabel (Verification.block?_isNone.mp (by rw [hblock]; rfl))
  | some block =>
    exact ⟨_, rfl, placed_start h hfunction (List.mem_of_find?_eq_some hblock) rfl⟩

end Frame

namespace Machine

variable {limits : Limits} {frame : Frame} {callers : List Frame} {state : RunState}

theorem clean_tick (limits : Limits) (state : RunState) : Clean (tick limits state) := by
  rw [tick]
  cases limits.steps with
  | none => exact Clean.ok _
  | some limit => exact Clean.ite (fun _ => Clean.error id) fun _ => Clean.ok _

/-- Whether all frames of a machine stand before an instruction. -/
def Placed (module : Module) (machine : Machine) : Prop :=
  ∀ frame ∈ machine.frames, frame.Placed module

theorem placed_cons : Placed module ⟨frame :: callers, state⟩ ↔
    frame.Placed module ∧ ∀ caller ∈ callers, caller.Placed module :=
  List.forall_mem_cons

theorem ensures_call (h : module.Verified entry qubits results) (hframe : frame.Placed module)
    (hcallers : ∀ caller ∈ callers, caller.Placed module) (result : Option String) (callee : String)
    (args : List Datum) : Ensures (call module limits frame callers state result callee args)
      fun next => next.2.Placed module := by
  rw [call.eq_def]
  split
  · next hfunction =>
    apply Ensures.ite
    · intro _
      have hnew := Frame.placed_enter h (Module.mem_of_definition? hfunction) args result
      exact Ensures.ok (placed_cons.mpr ⟨hnew, List.forall_mem_cons.mpr ⟨hframe, hcallers⟩⟩)
    · intro _
      exact Ensures.error id
  · apply (Run.orderly_perform _ _ _ _).andThen
    rintro ⟨effect, after⟩
    exact Ensures.ok (placed_cons.mpr ⟨hframe.bindResult _ _, hcallers⟩)
  · exact Ensures.error id

theorem ensures_jump (h : module.Verified entry qubits results)
    (hfunction : frame.function ∈ module.definitions) {label : String}
    (hlabel : label ∈ frame.function.blocks.map Block.label) :
    Ensures (frame.jump label) (Frame.Placed module) := by
  obtain ⟨next, hjump, hnext⟩ := Frame.exists_jump h hfunction hlabel
  rw [hjump]
  exact Ensures.ok hnext

theorem ensures_execute (h : module.Verified entry qubits results) (hframe : frame.Placed module)
    (hcallers : ∀ caller ∈ callers, caller.Placed module) {instruction : Instruction}
    {rest : List Instruction} (hrest : frame.rest = instruction :: rest) :
    Ensures (execute module limits { frame with rest } callers state instruction)
      fun next => next.2.Placed module := by
  have hmem := hframe.mem_instructions hrest
  have hwidths := h.supported hframe.function hmem
  have hadvance := hframe.advance h hrest
  have hlabels : ∀ target ∈ instruction.successors,
      target ∈ frame.function.blocks.map Block.label := fun target htarget =>
    ((h.wellFormed hframe.function).blocks frame.block hframe.block_mem).mem_labels
      (hframe.mem_block hrest) htarget
  have hlocal : ∀ step : Except EvalError Frame, Ensures step (Frame.Placed module) →
      Ensures (do return (none, ⟨(← step) :: callers, state⟩) :
        Except EvalError (Option Operation × Machine)) fun next => next.2.Placed module :=
    fun step hstep => hstep.bind fun next hnext => Ensures.ok (placed_cons.mpr ⟨hnext, hcallers⟩)
  cases instruction with
  | call result ret callee args =>
    apply Clean.andThen
    · apply Clean.mapM
      intro arg harg
      exact Frame.clean_operand _ (hwidths arg.ty (Instruction.ty_mem_types harg))
    · intro args
      exact ensures_call h (hadvance rfl) hcallers result callee args
  | ret operand =>
    have hoperand : Clean (operand.mapM (Frame.operand { frame with rest })) := by
      cases operand with
      | none => exact Clean.ok none
      | some arg =>
        have hty : arg.ty ∈ (Instruction.ret (some arg)).types := List.mem_singleton_self arg.ty
        exact (Frame.clean_operand _ (hwidths arg.ty hty)).bind fun _ _ => Clean.ok _
    exact hoperand.andThen fun datum =>
      Ensures.ok (forall_mem_leave hcallers fun _ hcaller => hcaller.bindResult _ datum)
  | binary result op width lhs rhs =>
    have hwidth : 1 ≤ width ∧ width ≤ 64 := hwidths (.int width) List.mem_cons_self width rfl
    apply hlocal
    apply (Frame.clean_word _ hwidth lhs).andThen
    intro a
    apply (Frame.clean_word _ hwidth rhs).andThen
    intro b
    exact (Word.clean_binary op hwidth a b).andThen fun _ =>
      Ensures.ok ((hadvance rfl).congr rfl rfl rfl)
  | compare result predicate width lhs rhs =>
    have hwidth : 1 ≤ width ∧ width ≤ 64 := hwidths (.int width) List.mem_cons_self width rfl
    apply hlocal
    apply (Frame.clean_word _ hwidth lhs).andThen
    intro a
    apply (Frame.clean_word _ hwidth rhs).andThen
    intro b
    exact Ensures.ok ((hadvance rfl).congr rfl rfl rfl)
  | convert result conversion source value target =>
    have hsource : 1 ≤ source ∧ source ≤ 64 := hwidths (.int source) List.mem_cons_self source rfl
    have htarget : 1 ≤ target ∧ target ≤ 64 :=
      hwidths (.int target) (List.mem_cons_of_mem _ List.mem_cons_self) target rfl
    apply hlocal
    apply (Frame.clean_word _ hsource value).andThen
    intro bits
    exact (Word.clean_convert conversion hsource htarget bits).andThen fun _ =>
      Ensures.ok ((hadvance rfl).congr rfl rfl rfl)
  | select result condition ty onTrue onFalse =>
    apply hlocal
    apply (Frame.clean_condition _ condition).andThen
    intro chosen
    exact (Frame.clean_datum _ (hwidths ty List.mem_cons_self) _).andThen fun _ =>
      Ensures.ok ((hadvance rfl).congr rfl rfl rfl)
  | branch target =>
    exact hlocal _ (ensures_jump h hframe.function (hlabels target List.mem_cons_self))
  | branchIf condition onTrue onFalse =>
    apply hlocal
    apply (Frame.clean_condition _ condition).andThen
    intro chosen
    refine ensures_jump h hframe.function (hlabels _ ?_)
    cases chosen <;> simp [Instruction.successors]

theorem ensures_step (h : module.Verified entry qubits results)
    (hplaced : Placed module ⟨frame :: callers, state⟩) :
    Ensures (Machine.step module limits frame callers state) fun next => next.2.Placed module := by
  obtain ⟨hframe, hcallers⟩ := placed_cons.mp hplaced
  rw [step]
  cases hrest : frame.rest with
  | nil => exact absurd hrest hframe.rest_ne_nil
  | cons instruction rest =>
    exact (clean_tick limits state).andThen fun _ => ensures_execute h hframe hcallers hrest

/-- In a run of a verified module all frames stand before an instruction at any time. -/
theorem Reaches.placed (h : module.Verified entry qubits results) {machine last : Machine}
    {operations : List Operation} (hreaches : Reaches module limits machine operations last)
    (hstart : machine.Placed module) : last.Placed module := by
  refine hreaches.preserves ?_ hstart
  intro frame callers state operation next hplaced hstep
  exact (ensures_step h hplaced).2 (operation, next) hstep

/-- In a run of a verified module no step reports a structural error. -/
theorem not_structural_of_outcome? (h : module.Verified entry qubits results) {machine : Machine}
    (hplaced : machine.Placed module) {error : EvalError}
    (houtcome : machine.outcome? module limits = some (.error error)) : ¬error.IsStructural := by
  obtain ⟨frames, state⟩ := machine
  cases frames with
  | nil => cases houtcome
  | cons frame callers =>
    rw [outcome?] at houtcome
    cases hstep : Machine.step module limits frame callers state with
    | ok result =>
      rw [hstep] at houtcome
      cases houtcome
    | error fault =>
      rw [hstep] at houtcome
      cases houtcome
      exact (ensures_step h hplaced).1 error hstep

end Machine

namespace Module

theorem resolveEntry_none (h : module.Verified entry qubits results) :
    module.resolveEntry none = .ok entry := by
  have hfound : module.entryPoint?.filter (fun function => !function.isDeclaration) =
      some entry := by
    simp [entryPoint?, h.entryPoints, h.body]
  rw [resolveEntry, hfound]

/-- A verified module has the entry point that a run starts from. -/
theorem exists_resolveEntry (h : module.Verified entry qubits results) {entryPoint : Option String}
    (hentry : ∀ name ∈ entryPoint, (module.definition? name).isSome) :
    ∃ function ∈ module.definitions, module.resolveEntry entryPoint = .ok function := by
  cases entryPoint with
  | none => exact ⟨entry, h.entry_mem, resolveEntry_none h⟩
  | some name =>
    obtain ⟨function, hfunction⟩ := Option.isSome_iff_exists.mp (hentry name rfl)
    refine ⟨function, mem_of_definition? hfunction, ?_⟩
    rw [resolveEntry, hfunction]

/-- A run of a verified module starts with a frame that stands before an instruction, or does not
start because it would call functions that nothing defines. -/
theorem prepare_cases (h : module.Verified entry qubits results) {entryPoint : Option String}
    (hentry : ∀ name ∈ entryPoint, (module.definition? name).isSome)
    (stream : Option (List Bool)) :
    (∃ machine, module.prepare entryPoint stream = .ok machine ∧ machine.Placed module) ∨
      ∃ names, module.prepare entryPoint stream = .error (.unsupported names) := by
  obtain ⟨function, hfunction, hresolve⟩ := exists_resolveEntry h hentry
  rw [prepare, hresolve]
  dsimp only [bind, Except.bind]
  cases module.unsupportedFrom function.name with
  | nil =>
    have hstart := Frame.placed_enter h hfunction [] none
    exact Or.inl ⟨_, rfl, Machine.placed_cons.mpr ⟨hstart, List.forall_mem_nil _⟩⟩
  | cons name names => exact Or.inr ⟨_, rfl⟩

/-- A run of a verified module that starts, starts before an instruction. -/
theorem placed_of_prepare (h : module.Verified entry qubits results) {entryPoint : Option String}
    {stream : Option (List Bool)} {machine : Machine}
    (hprepare : module.prepare entryPoint stream = .ok machine) : machine.Placed module := by
  have hentry : ∀ name ∈ entryPoint, (module.definition? name).isSome := by
    rintro name ⟨⟩
    cases hfound : module.definition? name with
    | some function => rfl
    | none =>
      rw [prepare, resolveEntry, hfound] at hprepare
      cases hprepare
  rcases prepare_cases h hentry stream with ⟨first, hfirst, hplaced⟩ | ⟨names, hnone⟩
  · rw [hprepare] at hfirst
    cases hfirst
    exact hplaced
  · rw [hprepare] at hnone
    cases hnone

theorem not_structural_of_evaluate (h : module.Verified entry qubits results) {limits : Limits}
    {entryPoint : Option String} (hentry : ∀ name ∈ entryPoint, (module.definition? name).isSome)
    {stream : Option (List Bool)} {σ : Type} {observer : Observer σ} {seen : σ} {error : EvalError}
    (herror : (module.evaluate limits observer entryPoint stream seen).1 = .error error) :
    ¬error.IsStructural := by
  rcases evaluate_error_cases herror with rfl | hprepare |
    ⟨start, operations, last, hprepare, hreaches, hlast⟩
  · exact id
  · rcases prepare_cases h hentry stream with ⟨start, hstart, -⟩ | ⟨names, hnone⟩
    · cases hprepare.symm.trans hstart
    · cases hprepare.symm.trans hnone
      exact id
  · have hplaced := hreaches.placed h (placed_of_prepare h hprepare)
    exact Machine.not_structural_of_outcome? h hplaced hlast

/-- Verification is enough for evaluation. Whatever the limits, the stream and the choice of a
defined function to start from, a run reports no structural error, stands before an instruction
in each of its frames at any time, and passes as many arguments to a defined function as that has
parameters. -/
theorem evaluate_of_verify (h : module.verify = .ok ()) (limits : Limits)
    (entryPoint : Option String) (hentry : ∀ name ∈ entryPoint, (module.definition? name).isSome)
    (stream : Option (List Bool)) :
    (∀ (σ : Type) (observer : Observer σ) (seen : σ) (error : EvalError),
      (module.evaluate limits observer entryPoint stream seen).1 = .error error →
        ¬error.IsStructural) ∧
    ∀ start operations machine, module.prepare entryPoint stream = .ok start →
      Machine.Reaches module limits start operations machine →
        machine.Placed module ∧
        ∀ frame ∈ machine.frames, ∀ result ret callee args rest,
          frame.rest = .call result ret callee args :: rest →
            ∀ target, module.definition? callee = some target →
              args.length = target.params.length := by
  obtain ⟨entry, qubits, results, hverified⟩ := verify_eq_ok_iff.mp h
  refine ⟨fun σ observer seen error => not_structural_of_evaluate hverified hentry, ?_⟩
  intro start operations machine hprepare hreaches
  have hstart := placed_of_prepare hverified hprepare
  have hplaced := hreaches.placed hverified hstart
  refine ⟨hplaced, ?_⟩
  intro frame hframe result ret callee args rest hrest target htarget
  have hmem := (hplaced frame hframe).mem_instructions hrest
  exact ((hverified.wellFormed (hplaced frame hframe).function).calls _ hmem).length_eq htarget

/-- An entry point that calls a function with an argument, and branches on what comes back. -/
def flipTwice : Module where
  name := "flip"
  source := none
  opaqueTypes := ["Qubit"]
  globals := []
  functions := [
    { name := "main", ret := .void, params := []
      attributes := [.flag "entry_point", .keyValue "required_num_qubits" "1",
        .keyValue "required_num_results" "0"]
      blocks := [
        ⟨"entry", [.call (some "again") .bool "flip" [.qubit 0],
          .branchIf (.reg "again") "more" "end"]⟩,
        ⟨"more", [.call (some "last") .bool "flip" [.qubit 0], .branch "end"]⟩,
        ⟨"end", [.ret none]⟩] },
    { name := "flip", ret := .bool, params := [⟨.qubit, some "target"⟩], attributes := []
      blocks := [⟨"entry", [
        .call none .void "__quantum__qis__x__body" [⟨.qubit, .reg "target"⟩],
        .ret (some ⟨.bool, .int 1⟩)]⟩] },
    Function.declaration "__quantum__qis__x__body" [.qubit] .void]

theorem evaluate_flipTwice : flipTwice.verify = .ok () ∧ (flipTwice.definition? "main").isSome ∧
    (∀ error, (flipTwice.evaluate .standard .trace (some "main") (some [true]) #[]).1 =
      .error error → ¬error.IsStructural) ∧
    ∀ start operations machine, flipTwice.prepare (some "main") (some [true]) = .ok start →
      Machine.Reaches flipTwice .standard start operations machine → machine.Placed flipTwice := by
  have hverify : flipTwice.verify = .ok () := by rfl
  have hentry : ∀ name ∈ some "main", (flipTwice.definition? name).isSome := by
    rintro _ ⟨⟩
    rfl
  obtain ⟨herrors, hplaces⟩ :=
    evaluate_of_verify hverify .standard (some "main") hentry (some [true])
  refine ⟨hverify, hentry "main" rfl, fun error => herrors _ .trace #[] error, ?_⟩
  intro start operations machine hprepare hreaches
  exact (hplaces start operations machine hprepare hreaches).1

end Module

end QuantumIR
