import QuantumIR.Proofs.Execution.Parts
import QuantumIR.Proofs.Execution.Rules

/-!
Why a step can fail. The values at hand are at fault, or the limits of the run are, or a function is
called that the module does not define and the catalog does not have. Only the values decide what an
instruction reports that stays in its function, and what a function of the catalog reports.
-/

namespace QuantumIR

open Verification

variable {α β : Type}

/-- Whether an error is one of the values at hand: it says nothing of the functions that there are,
nor of how long or deep a run may get. -/
def EvalError.IsLocal : EvalError → Prop
  | streamExhausted _ | unbound .. | mismatch _ | arithmetic _ | operand _ => True
  | entryPointNotFound _ | unsupported _ | stepLimit _ | callDepth _ => False

/-- A part of a run that reports local errors only. -/
def Local (result : Except EvalError α) : Prop :=
  ∀ error, result = .error error → error.IsLocal

namespace Local

theorem ok (a : α) : Local (.ok a) :=
  fun _ h => nomatch h

theorem error {error : EvalError} (h : error.IsLocal) :
    Local (.error error : Except EvalError α) := by
  rintro _ ⟨⟩
  exact h

theorem bind {first : Except EvalError α} {next : α → Except EvalError β} (h : Local first)
    (hnext : ∀ a, Local (next a)) : Local (first >>= next) := by
  cases first with
  | error fault => exact Local.error (h fault rfl)
  | ok a => exact hnext a

theorem ite {c : Prop} [Decidable c] {result result' : Except EvalError α} (h : Local result)
    (h' : Local result') : Local (if c then result else result') := by
  split
  · exact h
  · exact h'

theorem mapM {f : α → Except EvalError β} (h : ∀ a, Local (f a)) (items : List α) :
    Local (items.mapM f) := by
  induction items with
  | nil => exact ok []
  | cons a rest ih =>
    rw [List.mapM_cons]
    exact (h a).bind fun _ => ih.bind fun _ => ok _

end Local

namespace Word

theorem local_checkWidth (width : UInt32) : Local (checkWidth width) :=
  .ite (.ok ()) (.error trivial)

theorem local_checkShift (op : BinaryOp) (width : UInt32) (amount : Nat) :
    Local (checkShift op width amount) :=
  .ite (.ok ()) (.error trivial)

theorem local_checkDivisor (op : BinaryOp) (divisor : Nat) : Local (checkDivisor op divisor) :=
  .ite (.error trivial) (.ok ())

theorem local_binary (op : BinaryOp) (width : UInt32) (lhs rhs : Nat) :
    Local (binary op width lhs rhs) := by
  apply (local_checkWidth width).bind
  intro _
  cases op with
  | shl | lshr | ashr => exact (local_checkShift _ _ _).bind fun _ => .ok _
  | udiv | urem | srem => exact (local_checkDivisor _ _).bind fun _ => .ok _
  | sdiv =>
    apply (local_checkDivisor _ _).bind
    intro _
    exact .ite (.bind (.error trivial) fun _ => .ok _) (.ok _)
  | _ => exact .ok _

theorem local_convert (conversion : Conversion) (source : UInt32) (value : Nat)
    (target : UInt32) : Local (convert conversion source value target) := by
  apply (local_checkWidth source).bind
  intro _
  apply (local_checkWidth target).bind
  intro _
  cases conversion <;> exact .ok _

end Word

namespace Datum

theorem local_word (width : UInt32) (datum : Datum) : Local (datum.word width) := by
  cases datum with
  | int found bits => exact .ite (.ok bits) (.error trivial)
  | _ => exact .error trivial

theorem local_truth (datum : Datum) : Local datum.truth :=
  (local_word 1 datum).bind fun _ => .ok _

theorem local_signed64 (datum : Datum) : Local datum.signed64 :=
  (local_word 64 datum).bind fun _ => .ok _

theorem local_number (datum : Datum) : Local datum.number := by
  cases datum with
  | double value => exact .ok value
  | _ => exact .error trivial

theorem local_index (register : Register) (datum : Datum) : Local (datum.index register) := by
  rw [index.eq_def]
  split
  · exact .ok _
  · exact .error trivial

theorem local_ofConstant (ty : Ty) (value : Int64) : Local (ofConstant ty value) := by
  cases ty with
  | int width => exact (Word.local_checkWidth width).bind fun _ => .ok _
  | double => exact .ok _
  | _ => exact .error trivial

end Datum

namespace Frame

variable (frame : Frame)

theorem local_datum (ty : Ty) (value : Value) : Local (frame.datum ty value) := by
  cases value with
  | reg name =>
    rw [datum, read]
    split
    · exact .ok _
    · exact .error trivial
  | int value => exact Datum.local_ofConstant ty value
  | address index => exact .ite (.ok _) (.error trivial)
  | _ => exact .ok _

theorem local_word (width : UInt32) (value : Value) : Local (frame.word width value) :=
  (frame.local_datum (.int width) value).bind (Datum.local_word width)

theorem local_condition (value : Value) : Local (frame.condition value) :=
  (frame.local_datum .bool value).bind Datum.local_truth

theorem local_jump (label : String) : Local (frame.jump label) := by
  rw [jump]
  split
  · exact .ok _
  · exact .error trivial

end Frame

namespace Run

theorem local_label (module : Module) (datum : Datum) : Local (label module datum) := by
  rw [label.eq_def]
  split
  · exact .ok none
  · split
    · exact .ok _
    · exact .error trivial
  · exact .error trivial

theorem local_ofExcept {result : Except EvalError α} (h : Local result) (state : RunState) :
    Local (ofExcept result state) := by
  cases result with
  | ok a => exact .ok _
  | error error => exact .error (h error rfl)

theorem composable_local : Composable fun action => ∀ state, Local (action state) where
  pure _ _ := .ok _
  bind h hnext state := (h state).bind fun result => hnext result.1 result.2
  index register datum := local_ofExcept (Datum.local_index register datum)
  truth datum := local_ofExcept (Datum.local_truth datum)
  signed64 datum := local_ofExcept (Datum.local_signed64 datum)
  number datum := local_ofExcept (Datum.local_number datum)
  label module datum := local_ofExcept (local_label module datum)
  useQubit _ _ := .ok _
  useResult _ _ := .ok _
  note _ _ := .ok _
  output _ _ := .ok _
  store _ _ _ := .ok _
  stored? _ _ := .ok _
  outcome state := by
    rw [outcome]
    split
    · exact .ok _
    · exact .error trivial
    · exact .ok _
  allocate _ := .ite (.ok _) (.error trivial)
  argumentCount _ _ _ _ := .error trivial

end Run

namespace Machine

variable {module : Module} {limits : Limits} {frame : Frame} {callers : List Frame}
  {state : RunState} {error : EvalError}

theorem local_executeLocal (frame : Frame) (instruction : Instruction) :
    Local (executeLocal frame instruction) := by
  cases instruction with
  | binary result op width lhs rhs =>
    exact (frame.local_word width lhs).bind fun _ => (frame.local_word width rhs).bind fun _ =>
      (Word.local_binary op width _ _).bind fun _ => .ok _
  | compare result predicate width lhs rhs =>
    exact (frame.local_word width lhs).bind fun _ => (frame.local_word width rhs).bind fun _ =>
      .ok _
  | convert result conversion source value target =>
    exact (frame.local_word source value).bind fun _ =>
      (Word.local_convert conversion source _ target).bind fun _ => .ok _
  | select result condition ty onTrue onFalse =>
    exact (frame.local_condition condition).bind fun _ => (frame.local_datum ty _).bind fun _ =>
      .ok _
  | branch target => exact frame.local_jump target
  | branchIf condition onTrue onFalse =>
    exact (frame.local_condition condition).bind fun _ => frame.local_jump _
  | call | ret => exact .ok _

/-- What does not call a function reports local errors only. -/
theorem local_execute {instruction : Instruction} (h : instruction.callee? = none) :
    Local (execute module limits frame callers state instruction) := by
  cases instruction with
  | call => cases h
  | ret operand =>
    refine Local.bind ?_ fun _ => .ok _
    cases operand with
    | none => exact .ok none
    | some operand => exact (frame.local_datum _ _).bind fun _ => .ok _
  | _ => exact (local_executeLocal frame _).bind fun _ => .ok _

/-- Why a step fails. -/
inductive Fails (module : Module) (limits : Limits) (frame : Frame) (callers : List Frame)
    (state : RunState) : EvalError → Prop
  | atHand {error : EvalError} :
      error.IsLocal → Fails module limits frame callers state error
  | stepLimit {limit : Nat} :
      limits.steps = some limit → limit ≤ state.steps →
      Fails module limits frame callers state (.stepLimit limit)
  | callDepth {instruction : Instruction} {rest : List Instruction} {callee : String} :
      frame.rest = instruction :: rest → instruction.callee? = some callee →
      (module.definition? callee).isSome → limits.depth ≤ callers.length + 1 →
      Fails module limits frame callers state (.callDepth limits.depth)
  | unsupported {instruction : Instruction} {rest : List Instruction} {callee : String} :
      frame.rest = instruction :: rest → instruction.callee? = some callee →
      module.definition? callee = none → Intrinsic.ofName? callee = none →
      Fails module limits frame callers state (.unsupported [callee])

theorem fails_of_tick (h : tick limits state = .error error) :
    Fails module limits frame callers state error := by
  rw [tick] at h
  split at h
  · next limit hlimit =>
    split at h
    · next hless =>
      cases h
      exact .stepLimit hlimit (Nat.le_of_lt_succ hless)
    · cases h
  · cases h

theorem fails_of_call {result : Option String} {ret : Ty} {callee : String}
    {operands : List Operand} {rest : List Instruction} {args : List Datum} {ticked : RunState}
    (hrest : frame.rest = .call result ret callee operands :: rest)
    (h : call module limits { frame with rest } callers ticked result callee args = .error error) :
    Fails module limits frame callers state error := by
  rw [call.eq_def] at h
  split at h
  · next hfunction =>
    split at h
    · cases h
    · next hdepth =>
      cases h
      exact .callDepth hrest rfl (by rw [hfunction]; rfl) (Nat.le_of_not_lt hdepth)
  · next intrinsic _ _ =>
    rcases bind_eq_error h with hperform | ⟨_, -, hnext⟩
    · exact .atHand (Run.composable_local.perform module intrinsic args ticked error hperform)
    · cases hnext
  · next hnone hname =>
    cases h
    exact .unsupported hrest rfl hnone hname

/-- A step fails for one of these causes. -/
theorem fails_of_step (h : step module limits frame callers state = .error error) :
    Fails module limits frame callers state error := by
  cases hrest : frame.rest with
  | nil =>
    rw [step, hrest] at h
    cases h
    exact .atHand trivial
  | cons instruction rest =>
    rw [step_cons hrest] at h
    rcases bind_eq_error h with htick | ⟨ticked, -, hexecute⟩
    · exact fails_of_tick htick
    · cases hcallee : instruction.callee? with
      | none => exact .atHand (local_execute hcallee error hexecute)
      | some callee =>
        cases instruction with
        | call result ret target operands =>
          rcases bind_eq_error hexecute with hargs | ⟨args, -, hcall⟩
          · exact .atHand (Local.mapM (fun _ => Frame.local_datum _ _ _) operands error hargs)
          · exact fails_of_call hrest hcall
        | _ => cases hcallee

end Machine

end QuantumIR
