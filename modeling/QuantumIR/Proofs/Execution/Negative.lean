import QuantumIR.Proofs.Execution.Parts
import QuantumIR.Proofs.Verified.Execution

/-!
Where a run can report a negative index: only where an instruction reads a constant pointer whose
address is negative. Arithmetic, branches and the functions of the catalog report other errors.
-/

namespace QuantumIR

variable {α β : Type}

/-- A value that is no constant pointer with a negative address. -/
def Value.Unsigned : Value → Prop
  | address index => 0 ≤ index.toInt
  | _ => True

instance : (value : Value) → Decidable value.Unsigned
  | .address index => inferInstanceAs (Decidable (0 ≤ index.toInt))
  | .reg _ | .int _ | .double _ | .null | .global _ | .firstByte .. => isTrue trivial

/-- No value that an instruction reads has a negative address. -/
def Instruction.Unsigned (instruction : Instruction) : Prop :=
  ∀ operand ∈ instruction.operands, operand.2.Unsigned

instance (instruction : Instruction) : Decidable instruction.Unsigned :=
  inferInstanceAs (Decidable (∀ operand ∈ instruction.operands, operand.2.Unsigned))

/-- A part of a run that reports no negative index. -/
def IndexSafe (result : Except EvalError α) : Prop :=
  ∀ index, result ≠ .error (.operand (.negativeIndex index))

namespace IndexSafe

theorem ok (a : α) : IndexSafe (.ok a) := by
  rintro index ⟨⟩

theorem error {error : EvalError} (h : ∀ index, error ≠ .operand (.negativeIndex index)) :
    IndexSafe (.error error : Except EvalError α) :=
  fun index heq => h index (Except.error.inj heq)

theorem bind {first : Except EvalError α} {next : α → Except EvalError β} (h : IndexSafe first)
    (hnext : ∀ a, IndexSafe (next a)) : IndexSafe (first >>= next) := by
  cases first with
  | error fault => exact IndexSafe.error fun index heq => h index (by rw [heq])
  | ok a => exact hnext a

theorem ite {c : Prop} [Decidable c] {result result' : Except EvalError α} (h : IndexSafe result)
    (h' : IndexSafe result') : IndexSafe (if c then result else result') := by
  split
  · exact h
  · exact h'

theorem mapM {f : α → Except EvalError β} {items : List α} (h : ∀ a ∈ items, IndexSafe (f a)) :
    IndexSafe (items.mapM f) := by
  induction items with
  | nil => exact ok []
  | cons a rest ih =>
    rw [List.mapM_cons]
    refine bind (h a List.mem_cons_self) fun b => ?_
    exact bind (ih fun c hc => h c (List.mem_cons_of_mem a hc)) fun bs => ok _

end IndexSafe

open IndexSafe

namespace Word

theorem indexSafe_checkWidth (width : UInt32) : IndexSafe (checkWidth width) :=
  .ite (.ok ()) (.error fun _ => by simp)

theorem indexSafe_checkShift (op : BinaryOp) (width : UInt32) (amount : Nat) :
    IndexSafe (checkShift op width amount) :=
  .ite (.ok ()) (.error fun _ => by simp)

theorem indexSafe_checkDivisor (op : BinaryOp) (divisor : Nat) :
    IndexSafe (checkDivisor op divisor) :=
  .ite (.error fun _ => by simp) (.ok ())

theorem indexSafe_binary (op : BinaryOp) (width : UInt32) (lhs rhs : Nat) :
    IndexSafe (binary op width lhs rhs) := by
  apply (indexSafe_checkWidth width).bind
  intro _
  cases op with
  | shl | lshr | ashr => exact (indexSafe_checkShift _ _ _).bind fun _ => .ok _
  | udiv | urem | srem => exact (indexSafe_checkDivisor _ _).bind fun _ => .ok _
  | sdiv =>
    apply (indexSafe_checkDivisor _ _).bind
    intro _
    exact .ite (.bind (.error fun _ => by simp) fun _ => .ok _) (.ok _)
  | _ => exact .ok _

theorem indexSafe_convert (conversion : Conversion) (source : UInt32) (value : Nat)
    (target : UInt32) : IndexSafe (convert conversion source value target) := by
  apply (indexSafe_checkWidth source).bind
  intro _
  apply (indexSafe_checkWidth target).bind
  intro _
  cases conversion <;> exact .ok _

end Word

namespace Datum

theorem indexSafe_word (width : UInt32) (datum : Datum) : IndexSafe (datum.word width) := by
  cases datum with
  | int found bits => exact .ite (.ok bits) (.error fun _ => by simp)
  | _ => exact .error fun _ => by simp

theorem indexSafe_signed64 (datum : Datum) : IndexSafe datum.signed64 :=
  (indexSafe_word 64 datum).bind fun _ => .ok _

theorem indexSafe_truth (datum : Datum) : IndexSafe datum.truth :=
  (indexSafe_word 1 datum).bind fun _ => .ok _

theorem indexSafe_number (datum : Datum) : IndexSafe datum.number := by
  cases datum with
  | double value => exact .ok value
  | _ => exact .error fun _ => by simp

theorem indexSafe_index (register : Register) (datum : Datum) :
    IndexSafe (datum.index register) := by
  cases datum with
  | pointer target =>
    cases target with
    | index index => exact .ok index
    | _ => exact .error fun _ => by simp
  | _ => exact .error fun _ => by simp

theorem indexSafe_ofConstant (ty : Ty) (value : Int64) : IndexSafe (ofConstant ty value) := by
  cases ty with
  | int width => exact (Word.indexSafe_checkWidth width).bind fun _ => .ok _
  | double => exact .ok _
  | _ => exact .error fun _ => by simp

end Datum

namespace Frame

variable (frame : Frame)

theorem indexSafe_datum (ty : Ty) {value : Value} (h : value.Unsigned) :
    IndexSafe (frame.datum ty value) := by
  cases value with
  | reg name =>
    rw [datum, read]
    cases frame.registers.get? name with
    | some found => exact .ok found
    | none => exact .error fun _ => by simp
  | int value => exact Datum.indexSafe_ofConstant ty value
  | address index =>
    have hnonneg : 0 ≤ index.toInt := h
    rw [datum, if_pos hnonneg]
    exact .ok _
  | _ => exact .ok _

theorem indexSafe_word (width : UInt32) {value : Value} (h : value.Unsigned) :
    IndexSafe (frame.word width value) :=
  (frame.indexSafe_datum (.int width) h).bind fun datum => datum.indexSafe_word width

theorem indexSafe_condition {value : Value} (h : value.Unsigned) :
    IndexSafe (frame.condition value) :=
  (frame.indexSafe_datum .bool h).bind Datum.indexSafe_truth

theorem indexSafe_jump (label : String) : IndexSafe (frame.jump label) := by
  rw [jump]
  split
  · exact .ok _
  · exact .error fun _ => by simp

end Frame

/-- A part of a run that reports no negative index from any state. -/
def Run.IndexSafe (action : Run α) : Prop :=
  ∀ state, QuantumIR.IndexSafe (action state)

namespace Run

theorem indexSafe_ofExcept {result : Except EvalError α} (h : QuantumIR.IndexSafe result) :
    (ofExcept result).IndexSafe := by
  intro state
  cases result with
  | ok a => exact .ok _
  | error error => exact .error fun index heq => h index (by rw [heq])

theorem indexSafe_label (module : Module) (datum : Datum) :
    QuantumIR.IndexSafe (label module datum) := by
  rw [label.eq_def]
  split
  · exact .ok _
  · split
    · exact .ok _
    · exact .error fun _ => by simp
  · exact .error fun _ => by simp

theorem composable_indexSafe : Composable Run.IndexSafe where
  pure _ _ := .ok _
  bind h hnext state := (h state).bind fun result => hnext result.1 result.2
  index register datum := indexSafe_ofExcept (datum.indexSafe_index register)
  truth datum := indexSafe_ofExcept datum.indexSafe_truth
  signed64 datum := indexSafe_ofExcept datum.indexSafe_signed64
  number datum := indexSafe_ofExcept datum.indexSafe_number
  label module datum := indexSafe_ofExcept (indexSafe_label module datum)
  useQubit _ _ := .ok _
  useResult _ _ := .ok _
  note _ _ := .ok _
  output _ _ := .ok _
  store _ _ _ := .ok _
  stored? _ _ := .ok _
  outcome state := by
    rw [outcome]
    split
    · exact .ok _
    · exact .error fun _ => by simp
    · exact .ok _
  allocate _ := .ite (.ok _) (.error fun _ => by simp)
  argumentCount _ _ _ _ := .error fun _ => by simp

end Run

namespace Machine

variable {module : Module} {limits : Limits} {frame : Frame} {callers : List Frame}
  {state : RunState}

theorem indexSafe_tick (limits : Limits) (state : RunState) : IndexSafe (tick limits state) := by
  rw [tick]
  split
  · exact .ite (.error fun _ => by simp) (.ok _)
  · exact .ok _

theorem indexSafe_call (result : Option String) (callee : String) (args : List Datum) :
    IndexSafe (call module limits frame callers state result callee args) := by
  rw [call.eq_def]
  split
  · exact .ite (.ok _) (.error fun _ => by simp)
  · exact (Run.composable_indexSafe.perform _ _ _ _).bind fun _ => .ok _
  · exact .error fun _ => by simp

theorem indexSafe_executeLocal {instruction : Instruction} (h : instruction.Unsigned) :
    IndexSafe (executeLocal frame instruction) := by
  rw [Instruction.Unsigned] at h
  cases instruction with
  | binary result op width lhs rhs =>
    simp only [Instruction.operands, List.forall_mem_cons] at h
    exact (frame.indexSafe_word width h.1).bind fun _ =>
      (frame.indexSafe_word width h.2.1).bind fun _ =>
        (Word.indexSafe_binary op width _ _).bind fun _ => .ok _
  | compare result predicate width lhs rhs =>
    simp only [Instruction.operands, List.forall_mem_cons] at h
    exact (frame.indexSafe_word width h.1).bind fun _ =>
      (frame.indexSafe_word width h.2.1).bind fun _ => .ok _
  | convert result conversion source value target =>
    simp only [Instruction.operands, List.forall_mem_cons] at h
    exact (frame.indexSafe_word source h.1).bind fun _ =>
      (Word.indexSafe_convert conversion source _ target).bind fun _ => .ok _
  | select result condition ty onTrue onFalse =>
    simp only [Instruction.operands, List.forall_mem_cons] at h
    refine (frame.indexSafe_condition h.1).bind fun truth => ?_
    refine IndexSafe.bind (frame.indexSafe_datum ty ?_) fun _ => .ok _
    cases truth with
    | true => exact h.2.1
    | false => exact h.2.2.1
  | branch target => exact frame.indexSafe_jump target
  | branchIf condition onTrue onFalse =>
    simp only [Instruction.operands, List.forall_mem_cons] at h
    exact (frame.indexSafe_condition h.1).bind fun _ => frame.indexSafe_jump _
  | call | ret => exact .ok _

theorem indexSafe_execute {instruction : Instruction} (h : instruction.Unsigned) :
    IndexSafe (execute module limits frame callers state instruction) := by
  cases instruction with
  | call result ret callee operands =>
    refine IndexSafe.bind (.mapM fun operand hoperand => frame.indexSafe_datum _ ?_)
      fun args => indexSafe_call result callee args
    exact h _ (List.mem_map_of_mem hoperand)
  | ret operand =>
    refine IndexSafe.bind ?_ fun _ => .ok _
    cases operand with
    | none => exact .ok _
    | some operand =>
      refine IndexSafe.bind (frame.indexSafe_datum _ ?_) fun _ => .ok _
      exact h _ (List.mem_singleton_self _)
  | _ => exact (indexSafe_executeLocal h).bind fun _ => .ok _

/-- A step before an instruction that reads no negative address reports no negative index. -/
theorem indexSafe_step
    (h : ∀ instruction rest, frame.rest = instruction :: rest → instruction.Unsigned) :
    IndexSafe (step module limits frame callers state) := by
  rw [step]
  split
  · exact .error fun _ => by simp
  · next instruction rest hrest =>
    exact (indexSafe_tick limits state).bind fun _ => indexSafe_execute (h instruction rest hrest)

end Machine

end QuantumIR
