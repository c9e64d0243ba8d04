import QuantumIR.Proofs.Execution.Lockstep
import QuantumIR.Proofs.Renaming.Names

/-!
Names and order do not matter to a run. A module and what it becomes run in lockstep: the frames of
one are those of the other with new names, and what a register holds the register of the new name
holds. The names of the place to return to are those of the caller, not those of the frame itself.
-/

namespace QuantumIR

open Verification

/-- Whether an error becomes another one where the names of locals and labels and the order of
functions change. An unbound register has its new name, and unsupported functions stand in some
order. Everything else is the same. -/
inductive EvalError.Becomes (module : Module) (names : Function → Renaming) :
    EvalError → EvalError → Prop
  | same (error : EvalError) : Becomes module names error error
  | unbound {function : Function} (name : String) :
      function ∈ module.functions →
      Becomes module names (.unbound function.name name)
        (.unbound function.name ((names function).locals name))
  | unsupported {reported reported' : List String} :
      reported.Perm reported' →
      Becomes module names (.unsupported reported) (.unsupported reported')

variable {names : Function → Renaming} {module other : Module}

theorem agree_same {α : Type} (result : Except EvalError α) :
    Agree (EvalError.Becomes module names) Eq result result := by
  cases result with
  | error error => exact .error (.same error)
  | ok a => exact .ok rfl

/-- Registers that hold under new names what others hold, still do when a register is set. -/
theorem get?_set_renamed {locals : String → String} (hlocals : Function.Injective locals)
    {registers registers' : Bindings String Datum}
    (h : ∀ name, registers'.get? (locals name) = registers.get? name) (key : String)
    (datum : Datum) (name : String) :
    (registers'.set (locals key) datum).get? (locals name) =
      (registers.set key datum).get? name := by
  simp only [Bindings.get?_set, hlocals.eq_iff, h]

theorem get?_foldl_renamed {locals : String → String} (hlocals : Function.Injective locals)
    (pairs : List (String × Datum)) {registers registers' : Bindings String Datum}
    (h : ∀ name, registers'.get? (locals name) = registers.get? name) (name : String) :
    ((pairs.map (Prod.map locals id)).foldl (fun registers (name, arg) => registers.set name arg)
        registers').get? (locals name) =
      (pairs.foldl (fun registers (name, arg) => registers.set name arg) registers).get? name := by
  induction pairs generalizing registers registers' with
  | nil => exact h name
  | cons pair rest ih => exact ih (get?_set_renamed hlocals h pair.1 pair.2)

/-- Whether a frame becomes another one. The place to return to is a register of the caller, whose
locals have other names. -/
structure Frame.Becomes (names : Function → Renaming) (outer : String → String)
    (frame new : Frame) : Prop where
  function : frame.function.Becomes names new.function
  block : new.block = frame.block.renamed (names frame.function)
  rest : new.rest = frame.rest.map (Instruction.renamed (names frame.function))
  registers : ∀ name, new.registers.get? ((names frame.function).locals name) =
    frame.registers.get? name
  returnTo : new.returnTo = frame.returnTo.map outer

namespace Frame.Becomes

variable {outer : String → String} {frame new : Frame}

theorem bind (h : frame.Becomes names outer new) (name : String) (datum : Datum) :
    (frame.bind name datum).Becomes names outer
      (new.bind ((names frame.function).locals name) datum) := by
  refine ⟨h.function, h.block, h.rest, ?_, h.returnTo⟩
  exact get?_set_renamed (names frame.function).locals_injective h.registers name datum

theorem bindResult (h : frame.Becomes names outer new) (name : Option String)
    (datum : Option Datum) :
    (frame.bindResult name datum).Becomes names outer
      (new.bindResult (name.map (names frame.function).locals) datum) := by
  cases name with
  | none => exact h
  | some name =>
    cases datum with
    | none => exact h
    | some datum => exact h.bind name datum

theorem agree_datum (h : frame.Becomes names outer new) (hmem : frame.function ∈ module.functions)
    (ty : Ty) (value : Value) :
    Agree (EvalError.Becomes module names) Eq (frame.datum ty value)
      (new.datum ty (value.renamed (names frame.function).locals)) := by
  cases value with
  | reg name =>
    rw [Value.renamed, datum, datum, read, read, h.registers, h.function.name_eq]
    cases frame.registers.get? name with
    | some datum => exact .ok rfl
    | none => exact .error (.unbound name hmem)
  | _ => exact agree_same _

theorem agree_operand (h : frame.Becomes names outer new)
    (hmem : frame.function ∈ module.functions) (operand : Operand) :
    Agree (EvalError.Becomes module names) Eq (frame.operand operand)
      (new.operand (operand.renamed (names frame.function).locals)) :=
  h.agree_datum hmem operand.ty operand.value

theorem agree_operands (h : frame.Becomes names outer new)
    (hmem : frame.function ∈ module.functions) (operands : List Operand) :
    Agree (EvalError.Becomes module names) Eq (operands.mapM frame.operand)
      ((operands.map (Operand.renamed (names frame.function).locals)).mapM new.operand) := by
  induction operands with
  | nil => exact .ok rfl
  | cons operand rest ih =>
    rw [List.map_cons, List.mapM_cons, List.mapM_cons]
    apply (h.agree_operand hmem operand).bind
    rintro datum _ rfl
    apply ih.bind
    rintro data _ rfl
    exact .ok rfl

theorem agree_word (h : frame.Becomes names outer new) (hmem : frame.function ∈ module.functions)
    (width : UInt32) (value : Value) :
    Agree (EvalError.Becomes module names) Eq (frame.word width value)
      (new.word width (value.renamed (names frame.function).locals)) := by
  apply (h.agree_datum hmem (.int width) value).bind
  rintro datum _ rfl
  exact agree_same _

theorem agree_condition (h : frame.Becomes names outer new)
    (hmem : frame.function ∈ module.functions) (value : Value) :
    Agree (EvalError.Becomes module names) Eq (frame.condition value)
      (new.condition (value.renamed (names frame.function).locals)) := by
  apply (h.agree_datum hmem .bool value).bind
  rintro datum _ rfl
  exact agree_same _

/-- A jump to a label of the function leads to the block of the new label. -/
theorem agree_jump (h : frame.Becomes names outer new)
    (hlabels : (frame.function.blocks.map Block.label).Nodup) {label : String}
    (hlabel : label ∈ frame.function.blocks.map Block.label) :
    Agree (EvalError.Becomes module names) (Frame.Becomes names outer) (frame.jump label)
      (new.jump ((names frame.function).labels label)) := by
  rw [jump, jump, h.function.block?_eq hlabels]
  cases hblock : frame.function.block? label with
  | some block => exact .ok ⟨h.function, rfl, rfl, h.registers, h.returnTo⟩
  | none => exact absurd hlabel (block?_isNone.mp (by rw [hblock]; rfl))

theorem arguments_eq {function new : Function} (h : function.Becomes names new)
    (args : List Datum) : arguments new args =
      (arguments function args).map (Prod.map (names function).locals id) := by
  have hparams : new.params = function.params.map (Param.renamed (names function)) := by
    rw [h.rest]
    rfl
  rw [arguments, arguments, hparams, List.zip_map_left, List.filterMap_map, List.map_filterMap]
  apply List.filterMap_congr
  rintro ⟨⟨ty, name⟩, arg⟩ -
  cases name <;> rfl

theorem enter {function new : Function} (h : function.Becomes names new)
    (hbody : function.blocks ≠ []) (args : List Datum) (returnTo : Option String) :
    (Frame.enter function args returnTo).Becomes names outer
      (Frame.enter new args (returnTo.map outer)) := by
  have hblock : new.blocks.headD ⟨"", []⟩ =
      (function.blocks.headD ⟨"", []⟩).renamed (names function) := by
    obtain ⟨block, blocks, hblocks⟩ := List.exists_cons_of_ne_nil hbody
    have hfirst := h.first
    rw [Function.renamed, hblocks] at hfirst
    rw [hblocks, List.headD_eq_head?_getD, hfirst]
    rfl
  refine ⟨h, hblock, congrArg Block.instructions hblock, ?_, rfl⟩
  intro name
  change Bindings.get? _ ((arguments new args).foldl _ []) = _
  rw [arguments_eq h]
  exact get?_foldl_renamed (names function).locals_injective _ (fun _ => rfl) name

end Frame.Becomes

namespace Machine

variable {limits : Limits} {entry : Function} {qubits results : Nat} {outer : String → String}
  {frame new : Frame} {callers others : List Frame} {state : RunState} {instruction : Instruction}

/-- New names for the locals of the frame that waits for a return, if one does. -/
def outerNames (names : Function → Renaming) : List Frame → String → String
  | [] => id
  | caller :: _ => (names caller.function).locals

/-- Whether the frames of a machine become others. -/
inductive FramesBecome (names : Function → Renaming) : List Frame → List Frame → Prop
  | nil : FramesBecome names [] []
  | cons {frame new : Frame} {callers others : List Frame} :
      frame.Becomes names (outerNames names callers) new → FramesBecome names callers others →
      FramesBecome names (frame :: callers) (new :: others)

/-- Whether a machine becomes another one, with the same state beside the frames. -/
structure Becomes (names : Function → Renaming) (machine last : Machine) : Prop where
  frames : FramesBecome names machine.frames last.frames
  state : last.state = machine.state

theorem FramesBecome.length_eq (h : FramesBecome names callers others) :
    others.length = callers.length := by
  induction h with
  | nil => rfl
  | cons _ _ ih => rw [List.length_cons, List.length_cons, ih]

/-- What is returned comes into the register of the new name. -/
theorem FramesBecome.leave (h : FramesBecome names callers others) (returnTo : Option String)
    (datum : Option Datum) :
    FramesBecome names (leave callers returnTo datum)
      (Machine.leave others (returnTo.map (outerNames names callers)) datum) := by
  cases h with
  | nil => exact .nil
  | cons hcaller hothers => exact .cons (hcaller.bindResult returnTo datum) hothers

/-- An instruction that stays in its function makes of a frame and of what it becomes frames of
which one becomes the other. -/
theorem agree_executeLocal (h : frame.Becomes names outer new)
    (hmem : frame.function ∈ module.functions)
    (hdistinct : (frame.function.blocks.map Block.label).Nodup)
    (hlabels : ∀ target ∈ instruction.successors,
      target ∈ frame.function.blocks.map Block.label) :
    Agree (EvalError.Becomes module names) (Frame.Becomes names outer)
      (executeLocal frame instruction)
      (executeLocal new (instruction.renamed (names frame.function))) := by
  cases instruction with
  | binary result op width lhs rhs =>
    apply (h.agree_word hmem width lhs).bind
    rintro a _ rfl
    apply (h.agree_word hmem width rhs).bind
    rintro b _ rfl
    apply (agree_same _).bind
    rintro bits _ rfl
    exact .ok (h.bind result _)
  | compare result predicate width lhs rhs =>
    apply (h.agree_word hmem width lhs).bind
    rintro a _ rfl
    apply (h.agree_word hmem width rhs).bind
    rintro b _ rfl
    exact .ok (h.bind result _)
  | convert result conversion source value target =>
    apply (h.agree_word hmem source value).bind
    rintro bits _ rfl
    apply (agree_same _).bind
    rintro converted _ rfl
    exact .ok (h.bind result _)
  | select result condition ty onTrue onFalse =>
    apply (h.agree_condition hmem condition).bind
    rintro chosen _ rfl
    cases chosen with
    | false =>
      apply (h.agree_datum hmem ty onFalse).bind
      rintro datum _ rfl
      exact .ok (h.bind result datum)
    | true =>
      apply (h.agree_datum hmem ty onTrue).bind
      rintro datum _ rfl
      exact .ok (h.bind result datum)
  | branch target => exact h.agree_jump hdistinct (hlabels target List.mem_cons_self)
  | branchIf condition onTrue onFalse =>
    apply (h.agree_condition hmem condition).bind
    rintro chosen _ rfl
    cases chosen with
    | false => exact h.agree_jump hdistinct (hlabels onFalse (by simp [Instruction.successors]))
    | true => exact h.agree_jump hdistinct (hlabels onTrue (by simp [Instruction.successors]))
  | call | ret => exact .ok h

/-- What two machines do next: they hand on the same operation and stay in lockstep, or fail
alike. -/
def AgreeNext (module : Module) (names : Function → Renaming)
    (first second : Except EvalError (Option Operation × Machine)) : Prop :=
  Agree (EvalError.Becomes module names)
    (fun next next' => next.1 = next'.1 ∧ next.2.Becomes names next'.2) first second

theorem agree_call (hmodule : module.Becomes names other)
    (hverified : module.Verified entry qubits results)
    (h : frame.Becomes names (outerNames names callers) new)
    (hcallers : FramesBecome names callers others) (result : Option String) (callee : String)
    (args : List Datum) :
    AgreeNext module names (call module limits frame callers state result callee args)
      (call other limits new others state (result.map (names frame.function).locals) callee
        args) := by
  have hdefinition := hmodule.rel_definition? hverified.functions callee
  have hperform : ∀ intrinsic, Run.perform other intrinsic args state =
      Run.perform module intrinsic args state := by
    intro intrinsic
    rw [hmodule.rest]
    rfl
  rw [call, call, hcallers.length_eq]
  generalize hfunction : module.definition? callee = found at hdefinition
  generalize other.definition? callee = found' at hdefinition
  cases hdefinition with
  | some hbecomes =>
    dsimp only
    split
    · have hbody := List.of_mem_filter (Module.mem_of_definition? hfunction)
      have hentered : FramesBecome names (frame :: callers) (new :: others) := .cons h hcallers
      refine .ok ⟨rfl, .cons (.enter hbecomes ?_ args result) hentered, rfl⟩
      simpa [Function.isDeclaration] using hbody
    · exact .error (.same _)
  | none =>
    cases Intrinsic.ofName? callee with
    | none => exact .error (.same _)
    | some intrinsic =>
      dsimp only
      rw [hperform]
      apply (agree_same _).bind
      rintro ⟨effect, after⟩ _ rfl
      exact .ok ⟨rfl, .cons (h.bindResult result effect.value) hcallers, rfl⟩

theorem agree_execute (hmodule : module.Becomes names other)
    (hverified : module.Verified entry qubits results)
    (h : frame.Becomes names (outerNames names callers) new)
    (hcallers : FramesBecome names callers others) (hmem : frame.function ∈ module.definitions)
    (hlabels : ∀ target ∈ instruction.successors,
      target ∈ frame.function.blocks.map Block.label) :
    AgreeNext module names (execute module limits frame callers state instruction)
      (execute other limits new others state (instruction.renamed (names frame.function))) := by
  have hfunction := List.mem_of_mem_filter hmem
  have hlocal : ∀ first first', Agree (EvalError.Becomes module names)
      (Frame.Becomes names (outerNames names callers)) first first' →
      AgreeNext module names (do return (none, ⟨(← first) :: callers, state⟩))
        (do return (none, ⟨(← first') :: others, state⟩)) :=
    fun first first' hfirst => hfirst.bind fun _ _ hafter => .ok ⟨rfl, .cons hafter hcallers, rfl⟩
  have hexecuteLocal := agree_executeLocal h hfunction
    (hverified.definitions frame.function hmem).labels hlabels
  cases instruction with
  | call result ret callee operands =>
    apply (h.agree_operands hfunction operands).bind
    rintro args _ rfl
    exact agree_call hmodule hverified h hcallers result callee args
  | ret operand =>
    have hoperand : Agree (EvalError.Becomes module names) Eq (operand.mapM frame.operand)
        ((operand.map (Operand.renamed (names frame.function).locals)).mapM new.operand) := by
      cases operand with
      | none => exact .ok rfl
      | some operand =>
        apply (h.agree_operand hfunction operand).bind
        rintro datum _ rfl
        exact .ok rfl
    apply hoperand.bind
    rintro datum _ rfl
    rw [h.returnTo]
    exact .ok ⟨rfl, hcallers.leave frame.returnTo datum, rfl⟩
  | _ => exact hlocal _ _ hexecuteLocal

/-- A frame before an instruction and what it becomes make steps in lockstep. -/
theorem agree_step (hmodule : module.Becomes names other)
    (hverified : module.Verified entry qubits results)
    (h : frame.Becomes names (outerNames names callers) new)
    (hcallers : FramesBecome names callers others) (hplaced : frame.Placed module) :
    AgreeNext module names (step module limits frame callers state)
      (step other limits new others state) := by
  rw [step, step, h.rest]
  cases hrest : frame.rest with
  | nil => exact absurd hrest hplaced.rest_ne_nil
  | cons instruction rest =>
    have hterminates :=
      (hverified.wellFormed hplaced.function).blocks frame.block hplaced.block_mem
    have hlabels : ∀ target ∈ instruction.successors,
        target ∈ frame.function.blocks.map Block.label :=
      fun target => hterminates.mem_labels (hplaced.mem_block hrest)
    dsimp only [List.map_cons]
    apply (agree_same _).bind
    rintro ticked _ rfl
    have hafter : Frame.Becomes names (outerNames names callers) { frame with rest }
        { new with rest := rest.map (Instruction.renamed (names frame.function)) } :=
      ⟨h.function, h.block, rfl, h.registers, h.returnTo⟩
    exact agree_execute hmodule hverified hafter hcallers hplaced.function hlabels

/-- A machine that stands before an instruction, and what it becomes, stay in lockstep. -/
theorem Becomes.exists_step {last : Machine} (h : Becomes names ⟨frame :: callers, state⟩ last)
    (hmodule : module.Becomes names other) (hverified : module.Verified entry qubits results)
    (hplaced : Placed module ⟨frame :: callers, state⟩) :
    ∃ frame' callers' state', last = ⟨frame' :: callers', state'⟩ ∧
      Agree (EvalError.Becomes module names) (fun next next' => next.1 = next'.1 ∧
          next.2.Placed module ∧ next.2.Becomes names next'.2)
        (step module limits frame callers state) (step other limits frame' callers' state') := by
  obtain ⟨frames, state'⟩ := last
  obtain ⟨hframes, hstate⟩ := h
  cases hstate
  cases hframes with
  | @cons _ new _ others hframe hcallers =>
    refine ⟨new, others, state, rfl, ?_⟩
    have hplaces : Ensures (step module limits frame callers state) fun next =>
        next.2.Placed module := ensures_step hverified hplaced
    have hnext : AgreeNext module names (step module limits frame callers state)
        (step other limits new others state) :=
      agree_step hmodule hverified hframe hcallers (placed_cons.mp hplaced).1
    generalize step module limits frame callers state = next at hnext hplaces
    generalize step other limits new others state = next' at hnext
    cases hnext with
    | error herror => exact .error herror
    | ok hnext => exact .ok ⟨hnext.1, hplaces.2 _ rfl, hnext.2⟩

end Machine

namespace Module

variable {limits : Limits} {entry : Function} {qubits results : Nat} {entryPoint : Option String}
  {stream : Option (List Bool)} {σ : Type}

theorem agree_resolveEntry (h : module.Becomes names other)
    (hverified : module.Verified entry qubits results) (entryPoint : Option String) :
    Agree (EvalError.Becomes module names) (Function.Becomes names)
      (module.resolveEntry entryPoint) (other.resolveEntry entryPoint) := by
  cases entryPoint with
  | none =>
    obtain ⟨new, hnew, hbecomes⟩ := h.exists_entryPoints_eq hverified.entryPoints
    have hfound : other.entryPoint?.filter (fun function => !function.isDeclaration) =
        some new := by
      simp [entryPoint?, hnew, hbecomes.isDeclaration_eq, hverified.body]
    rw [resolveEntry_none hverified, resolveEntry, hfound]
    exact .ok hbecomes
  | some name =>
    have hdefinition := h.rel_definition? hverified.functions name
    rw [resolveEntry, resolveEntry]
    generalize module.definition? name = found at hdefinition
    generalize other.definition? name = found' at hdefinition
    cases hdefinition with
    | none => exact .error (.same _)
    | some hbecomes => exact .ok hbecomes

theorem agree_prepare (h : module.Becomes names other)
    (hverified : module.Verified entry qubits results) (entryPoint : Option String)
    (stream : Option (List Bool)) :
    Agree (EvalError.Becomes module names) (Machine.Becomes names)
      (module.prepare entryPoint stream) (other.prepare entryPoint stream) := by
  have hentry := agree_resolveEntry h hverified entryPoint
  rw [prepare, prepare]
  generalize hresolve : module.resolveEntry entryPoint = found at hentry
  generalize other.resolveEntry entryPoint = found' at hentry
  cases hentry with
  | error herror => exact .error herror
  | @ok function new hbecomes =>
    have hperm := h.perm_unsupportedFrom hverified.functions (mem_names_of_resolveEntry hresolve)
    have hbody := isDeclaration_of_resolveEntry hresolve
    dsimp only [bind, Except.bind]
    rw [hbecomes.name_eq]
    generalize module.unsupportedFrom function.name = reported at hperm
    generalize other.unsupportedFrom function.name = reported' at hperm
    cases reported with
    | nil =>
      rw [hperm.nil_eq.symm]
      refine .ok ⟨.cons (.enter hbecomes (List.isEmpty_eq_false_iff.mp hbody) [] none) .nil, ?_⟩
      rw [hbecomes.rest]
      rfl
    | cons name reported =>
      cases reported' with
      | nil => cases hperm.eq_nil
      | cons name' reported' => exact .error (.unsupported hperm)

/-- Names and order do not matter to evaluation. The locals and the labels of each function of a
verified module get new names, different ones for different ones, and the functions, and the blocks
of each function after the first, stand in another order. Then every evaluation ends if it ended
before, whatever the entry point, the stream and the limits. An observer sees the same operations,
and on success the same at the end, and an error is the same up to names and order. -/
theorem evaluate?_renamed (h : module.verify = .ok ()) (names : Function → Renaming)
    (hother : (module.renamed names).Rearranges other) (limits : Limits)
    (entryPoint : Option String) (stream : Option (List Bool)) (observer : Observer σ) (seen : σ) :
    Option.Rel
      (fun result result' => Agree (EvalError.Becomes module names) Eq result.1 result'.1 ∧
        result.2 = result'.2)
      (module.evaluate? limits observer entryPoint stream seen)
      (other.evaluate? limits observer entryPoint stream seen) := by
  obtain ⟨entry, qubits, results, hverified⟩ := verify_eq_ok_iff.mp h
  have hmodule := hother.becomes
  have hprepare := agree_prepare hmodule hverified entryPoint stream
  rw [evaluate?, evaluate?]
  generalize hstart : module.prepare entryPoint stream = start at hprepare
  generalize other.prepare entryPoint stream = start' at hprepare
  cases hprepare with
  | error herror => exact .some ⟨.error herror, rfl⟩
  | @ok start start' hbecomes =>
    refine Machine.run_related (fun machine last => machine.Placed module ∧
      machine.Becomes names last) ?_ ?_ observer ⟨placed_of_prepare hverified hstart, hbecomes⟩ seen
    · rintro state ⟨frames, state'⟩ ⟨-, hframes, rfl⟩
      cases hframes
      exact ⟨rfl, rfl⟩
    · rintro frame callers state last ⟨hplaced, hlast⟩
      exact hlast.exists_step hmodule hverified hplaced

/-- Names with the same text put before each of them. -/
def prefixed (text : String) : Renaming where
  locals name := text ++ name
  labels name := text ++ name
  locals_injective := fun _ _ h => by simpa using h
  labels_injective := fun _ _ h => by simpa using h

/-- The module `flipTwice` with other names, where the entry point is the last function and its last
block stands before the one that comes to it. -/
def twiceFlipped : Module :=
  { flipTwice with
    functions := [
      { name := "flip", ret := .bool, params := [⟨.qubit, some "my.target"⟩], attributes := []
        blocks := [⟨"my.entry", [
          .call none .void "__quantum__qis__x__body" [⟨.qubit, .reg "my.target"⟩],
          .ret (some ⟨.bool, .int 1⟩)]⟩] },
      Function.declaration "__quantum__qis__x__body" [.qubit] .void,
      { name := "main", ret := .void, params := []
        attributes := [.flag "entry_point", .keyValue "required_num_qubits" "1",
          .keyValue "required_num_results" "0"]
        blocks := [
          ⟨"my.entry", [.call (some "my.again") .bool "flip" [.qubit 0],
            .branchIf (.reg "my.again") "my.more" "my.end"]⟩,
          ⟨"my.end", [.ret none]⟩,
          ⟨"my.more", [.call (some "my.last") .bool "flip" [.qubit 0], .branch "my.end"]⟩] }] }

theorem rearranges_twiceFlipped :
    (flipTwice.renamed fun _ => prefixed "my.").Rearranges twiceFlipped := by
  let first : Function := twiceFlipped.functions.head!
  let declared : Function := Function.declaration "__quantum__qis__x__body" [.qubit] .void
  let last : Function := twiceFlipped.functions.getLast!
  refine ⟨⟨[last, first, declared], ?_, ?_⟩, rfl⟩
  · refine .cons ⟨rfl, ?_, rfl⟩ (.cons ⟨rfl, .refl _, rfl⟩ (.cons ⟨rfl, .refl _, rfl⟩ .nil))
    exact (List.Perm.swap _ _ []).cons _
  · have hback := (List.Perm.swap declared last []).cons first
    exact (List.Perm.swap first last [declared]).trans hback

theorem evaluate?_twiceFlipped :
    flipTwice.verify = .ok () ∧
    (flipTwice.renamed fun _ => prefixed "my.").Rearranges twiceFlipped ∧
    ∀ limits entryPoint stream, Option.Rel
      (fun result result' => Agree (EvalError.Becomes flipTwice fun _ => prefixed "my.") Eq
        result.1 result'.1 ∧ result.2 = result'.2)
      (flipTwice.evaluate? limits .trace entryPoint stream #[])
      (twiceFlipped.evaluate? limits .trace entryPoint stream #[]) := by
  have hverify : flipTwice.verify = .ok () := by rfl
  refine ⟨hverify, rearranges_twiceFlipped, ?_⟩
  intro limits entryPoint stream
  exact evaluate?_renamed hverify _ rearranges_twiceFlipped limits entryPoint stream .trace #[]

end Module

end QuantumIR
