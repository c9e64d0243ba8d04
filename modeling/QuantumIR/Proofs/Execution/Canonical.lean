import QuantumIR.Proofs.Accepted.Canonical
import QuantumIR.Proofs.Execution.Lockstep
import QuantumIR.Proofs.Graph.Walk
import QuantumIR.Proofs.Verified.Execution

/-!
Running a module and running what its canonical text spells. Both go through the same operations to
the same outcome, unless a truth value is written as a number that is even and not zero: the
machine takes its low bit, the canonical text takes it for true.
-/

namespace QuantumIR

/-- Where a truth value is expected, a constant that is zero or odd. -/
def Value.Truthful (value : Value) (ty : Ty) : Prop :=
  match value with
  | .int n => ty = .bool → n = 0 ∨ n.toInt % 2 = 1
  | _ => True

instance Value.decidableTruthful : (value : Value) → (ty : Ty) → Decidable (value.Truthful ty)
  | .int n, ty => inferInstanceAs (Decidable (ty = .bool → n = 0 ∨ n.toInt % 2 = 1))
  | .reg _, _ | .double _, _ | .null, _ | .address _, _ | .global _, _ | .firstByte .., _ =>
    isTrue trivial

/-- The constants that an instruction reads as truth values are zero or odd. -/
def Instruction.Truthful (instruction : Instruction) : Prop :=
  ∀ use ∈ instruction.uses, use.2.Truthful use.1

instance (instruction : Instruction) : Decidable instruction.Truthful :=
  inferInstanceAs (Decidable (∀ use ∈ instruction.uses, use.2.Truthful use.1))

def Module.Truthful (module : Module) : Prop :=
  ∀ function ∈ module.functions, ∀ instruction ∈ function.instructions, instruction.Truthful

instance (module : Module) : Decidable module.Truthful :=
  inferInstanceAs (Decidable
    (∀ function ∈ module.functions, ∀ instruction ∈ function.instructions, instruction.Truthful))

/-- A number that is zero or odd is the same truth value as what its text spells. -/
theorem Datum.ofConstant_truth {n : Int64} (h : n = 0 ∨ n.toInt % 2 = 1) :
    ofConstant .bool (if n = 0 then 0 else 1) = ofConstant .bool n := by
  cases h with
  | inl hzero => rw [if_pos hzero, hzero]
  | inr hodd =>
    have hne : n ≠ 0 := by
      rintro rfl
      cases hodd
    have hone : (1 : Int64).toInt % 2 = n.toInt % 2 := by
      rw [hodd]
      decide
    have hbit : Word.truncate 1 1 = Word.truncate n 1 := congrArg Int.toNat hone
    have hdatum : ∀ m, ofConstant .bool m = .ok (.int 1 (Word.truncate m 1)) := fun _ => rfl
    rw [if_neg hne, hdatum, hdatum]
    exact congrArg (fun bits => Except.ok (Datum.int 1 bits)) hbit

namespace Frame

/-- A frame that is as far in the canonical text as a given one. -/
def canonical (frame : Frame) : Frame :=
  { frame with
    function := frame.function.canonical
    block := frame.block.canonical
    rest := frame.rest.map Instruction.canonical }

variable {frame : Frame}

theorem datum_canonical {value : Value} {ty : Ty} (h : value.Truthful ty) :
    frame.canonical.datum ty (value.canonical ty) = frame.datum ty value := by
  cases value with
  | int n =>
    have hcanonical : (Value.int n).canonical ty =
        if ty = .bool then .int (if n = 0 then 0 else 1)
        else if ty.isDouble then .double (.ofInt n.toInt) else .int n := rfl
    rw [hcanonical]
    by_cases hbool : ty = .bool
    · rw [if_pos hbool, hbool]
      exact Datum.ofConstant_truth (h hbool)
    · rw [if_neg hbool]
      split
      · next hdouble =>
        rw [Ty.isDouble_iff] at hdouble
        rw [hdouble]
        rfl
      · rfl
  | _ => rfl

theorem operand_canonical {operand : Operand} (h : operand.value.Truthful operand.ty) :
    frame.canonical.operand operand.canonical = frame.operand operand :=
  datum_canonical h

theorem mapM_operand_canonical {operands : List Operand}
    (h : ∀ operand ∈ operands, operand.value.Truthful operand.ty) :
    (operands.map Operand.canonical).mapM frame.canonical.operand =
      operands.mapM frame.operand := by
  induction operands with
  | nil => rfl
  | cons operand rest ih =>
    obtain ⟨hoperand, hrest⟩ := List.forall_mem_cons.mp h
    rw [List.map_cons, List.mapM_cons, List.mapM_cons, operand_canonical hoperand, ih hrest]

theorem word_canonical {width : UInt32} {value : Value} (h : value.Truthful (.int width)) :
    frame.canonical.word width (value.canonical (.int width)) = frame.word width value := by
  rw [word, word, datum_canonical h]

theorem condition_canonical {value : Value} (h : value.Truthful .bool) :
    frame.canonical.condition (value.canonical .bool) = frame.condition value := by
  rw [condition, condition, datum_canonical h]

theorem jump_canonical (frame : Frame) (label : String) :
    frame.canonical.jump label = Frame.canonical <$> frame.jump label := by
  have hblock : frame.canonical.function.block? label =
      (frame.function.block? label).map Block.canonical := by
    rw [canonical, Function.block?, Function.canonical, List.find?_map]
    rfl
  rw [jump, jump, hblock]
  cases frame.function.block? label <;> rfl

theorem bindResult_canonical (frame : Frame) (name : Option String) (datum : Option Datum) :
    frame.canonical.bindResult name datum = (frame.bindResult name datum).canonical := by
  cases name <;> cases datum <;> rfl

theorem enter_canonical (function : Function) (args : List Datum) (returnTo : Option String) :
    enter function.canonical args returnTo = (enter function args returnTo).canonical := by
  have hblock : function.canonical.blocks.headD ⟨"", []⟩ =
      (function.blocks.headD ⟨"", []⟩).canonical := by
    rw [Function.canonical]
    cases function.blocks <;> rfl
  rw [enter, enter, hblock]
  rfl

end Frame

namespace Module

variable {module : Module}

theorem definition?_canonical (hnames : (module.functions.map Function.name).Nodup)
    (name : String) :
    module.canonical.definition? name = (module.definition? name).map Function.canonical := by
  have hcanonical := (names_canonical module).nodup_iff.mpr hnames
  have hfunction : module.canonical.function? name =
      (module.function? name).map Function.canonical := by
    apply Option.ext
    intro function
    rw [function?_eq_some_iff hcanonical, mem_functions_canonical, Option.map_eq_some_iff]
    simp only [function?_eq_some_iff hnames]
    constructor
    · rintro ⟨⟨old, hmem, rfl⟩, hname⟩
      exact ⟨old, ⟨hmem, hname⟩, rfl⟩
    · rintro ⟨old, ⟨hmem, hname⟩, rfl⟩
      exact ⟨⟨old, hmem, rfl⟩, hname⟩
  have hbody : (fun function : Function => !function.isDeclaration) ∘ Function.canonical =
      fun function => !function.isDeclaration :=
    funext fun function => congrArg not function.isDeclaration_canonical
  rw [definition?, definition?, hfunction, Option.filter_map, hbody]

end Module

namespace Machine

/-- A machine that is as far in the canonical text as a given one. -/
def canonical (machine : Machine) : Machine :=
  ⟨machine.frames.map Frame.canonical, machine.state⟩

variable {module : Module} {limits : Limits} {frame : Frame} {callers : List Frame}
  {state : RunState}

theorem executeLocal_canonical {instruction : Instruction} (h : instruction.Truthful) :
    executeLocal frame.canonical instruction.canonical =
      Frame.canonical <$> executeLocal frame instruction := by
  cases instruction with
  | binary result op width lhs rhs =>
    have hlhs : lhs.Truthful (.int width) := h (.int width, lhs) (by simp [Instruction.uses])
    have hrhs : rhs.Truthful (.int width) := h (.int width, rhs) (by simp [Instruction.uses])
    rw [Instruction.canonical, executeLocal, executeLocal, Frame.word_canonical hlhs,
      Frame.word_canonical hrhs]
    simp only [map_bind, map_pure]
    rfl
  | compare result predicate width lhs rhs =>
    have hlhs : lhs.Truthful (.int width) := h (.int width, lhs) (by simp [Instruction.uses])
    have hrhs : rhs.Truthful (.int width) := h (.int width, rhs) (by simp [Instruction.uses])
    rw [Instruction.canonical, executeLocal, executeLocal, Frame.word_canonical hlhs,
      Frame.word_canonical hrhs]
    simp only [map_bind, map_pure]
    rfl
  | convert result conversion source value target =>
    have hvalue : value.Truthful (.int source) := h (.int source, value) (by simp [Instruction.uses])
    rw [Instruction.canonical, executeLocal, executeLocal, Frame.word_canonical hvalue]
    simp only [map_bind, map_pure]
    rfl
  | select result condition ty onTrue onFalse =>
    have hcondition : condition.Truthful .bool := h (.bool, condition) (by simp [Instruction.uses])
    have hTrue : onTrue.Truthful ty := h (ty, onTrue) (by simp [Instruction.uses])
    have hFalse : onFalse.Truthful ty := h (ty, onFalse) (by simp [Instruction.uses])
    have hchosen : ∀ chosen : Bool,
        frame.canonical.datum ty (if chosen then onTrue.canonical ty else onFalse.canonical ty) =
          frame.datum ty (if chosen then onTrue else onFalse) := by
      intro chosen
      cases chosen
      · exact Frame.datum_canonical hFalse
      · exact Frame.datum_canonical hTrue
    rw [Instruction.canonical, executeLocal, executeLocal, Frame.condition_canonical hcondition]
    simp only [map_bind, map_pure, hchosen]
    rfl
  | branch target => exact frame.jump_canonical target
  | branchIf condition onTrue onFalse =>
    have hcondition : condition.Truthful .bool := h (.bool, condition) (by simp [Instruction.uses])
    rw [Instruction.canonical, executeLocal, executeLocal, Frame.condition_canonical hcondition]
    simp only [map_bind, Frame.jump_canonical]
  | call => rfl
  | ret => rfl

theorem call_canonical (hnames : (module.functions.map Function.name).Nodup)
    (result : Option String) (callee : String) (args : List Datum) :
    call module.canonical limits frame.canonical (callers.map Frame.canonical) state result callee
        args =
      Prod.map id canonical <$> call module limits frame callers state result callee args := by
  have hperform : ∀ intrinsic,
      Run.perform module.canonical intrinsic args = Run.perform module intrinsic args :=
    fun _ => rfl
  rw [call, call, Module.definition?_canonical hnames]
  cases module.definition? callee with
  | some function =>
    dsimp only [Option.map_some]
    rw [List.length_map, Frame.enter_canonical]
    split <;> rfl
  | none =>
    cases Intrinsic.ofName? callee with
    | none => rfl
    | some intrinsic =>
      dsimp only [Option.map_none]
      rw [hperform]
      simp only [map_bind, map_pure, Frame.bindResult_canonical]
      rfl

theorem leave_canonical (callers : List Frame) (returnTo : Option String) (datum : Option Datum) :
    leave (callers.map Frame.canonical) returnTo datum =
      (leave callers returnTo datum).map Frame.canonical := by
  cases callers with
  | nil => rfl
  | cons caller others => rw [List.map_cons, leave, leave, Frame.bindResult_canonical, List.map_cons]

theorem execute_canonical (hnames : (module.functions.map Function.name).Nodup)
    {instruction : Instruction} (h : instruction.Truthful) :
    execute module.canonical limits frame.canonical (callers.map Frame.canonical) state
        instruction.canonical =
      Prod.map id canonical <$> execute module limits frame callers state instruction := by
  have hlocal : (do return (none, ⟨(← executeLocal frame.canonical instruction.canonical) ::
        callers.map Frame.canonical, state⟩) : Except EvalError (Option Operation × Machine)) =
      Prod.map id canonical <$>
        (do return (none, ⟨(← executeLocal frame instruction) :: callers, state⟩)) := by
    rw [executeLocal_canonical h]
    simp only [map_bind, bind_map_left, map_pure]
    rfl
  cases instruction with
  | call result ret callee operands =>
    have hoperands : ∀ operand ∈ operands, operand.value.Truthful operand.ty :=
      fun operand hmem => h (operand.ty, operand.value) (List.mem_map_of_mem hmem)
    rw [Instruction.canonical, execute, execute, Frame.mapM_operand_canonical hoperands]
    simp only [map_bind, call_canonical hnames]
  | ret operand =>
    have hoperand : (operand.map Operand.canonical).mapM frame.canonical.operand =
        operand.mapM frame.operand := by
      cases operand with
      | none => rfl
      | some operand =>
        have htruth : operand.value.Truthful operand.ty :=
          h (operand.ty, operand.value) (by simp [Instruction.uses])
        rw [Option.map_some, Option.mapM_some, Option.mapM_some, Frame.operand_canonical htruth]
    rw [Instruction.canonical, execute, execute, hoperand]
    simp only [map_bind, map_pure]
    have hreturn : frame.canonical.returnTo = frame.returnTo := rfl
    simp only [hreturn, leave_canonical]
    rfl
  | _ => exact hlocal

variable {entry : Function} {qubits results : Nat}

theorem step_canonical (h : module.Verified entry qubits results) (htruth : module.Truthful)
    (hframe : frame.Placed module) :
    Machine.step module.canonical limits frame.canonical (callers.map Frame.canonical) state =
      Prod.map id canonical <$> Machine.step module limits frame callers state := by
  have hrest : frame.canonical.rest = frame.rest.map Instruction.canonical := rfl
  rw [step, step, hrest]
  cases hfirst : frame.rest with
  | nil => rfl
  | cons instruction rest =>
    have hinstruction : instruction.Truthful :=
      htruth frame.function (List.mem_of_mem_filter hframe.function) instruction
        (hframe.mem_instructions hfirst)
    have hexecute : ∀ state, execute module.canonical limits { frame with rest }.canonical
          (callers.map Frame.canonical) state instruction.canonical =
        Prod.map id canonical <$> execute module limits { frame with rest } callers state
          instruction :=
      fun _ => execute_canonical h.functions hinstruction
    simp only [List.map_cons, map_bind]
    exact bind_congr hexecute

/-- From machines that are equally far, a module and its canonical form have the same runs. -/
theorem run_canonical (h : module.Verified entry qubits results) (htruth : module.Truthful)
    {σ : Type} (observer : Observer σ) {machine : Machine} (hplaced : machine.Placed module)
    (seen : σ) :
    run module.canonical limits observer machine.canonical seen =
      run module limits observer machine seen := by
  refine run_map ?_ ?_ observer hplaced seen
  · intro frame callers state hplaced
    exact step_canonical h htruth (placed_cons.mp hplaced).1
  · intro frame callers state operation next hplaced hstep
    exact (ensures_step h hplaced).2 (operation, next) hstep

end Machine

end QuantumIR
