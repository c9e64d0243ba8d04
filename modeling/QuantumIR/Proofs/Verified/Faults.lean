import QuantumIR.Proofs.Verified.Rules
import QuantumIR.Eval.Machine

/-!
Which errors the parts of a run can report. Evaluating operands, arithmetic at supported widths and
the functions of the catalog never report that the module is not in order.
-/

namespace QuantumIR

variable {α β : Type}

/-- Whether an error says that the module is not in order: there is no entry point, a block ends
too early, a branch leads nowhere, a width cannot be computed with, or an argument is missing
although there are as many as there should be. -/
def EvalError.IsStructural : EvalError → Prop
  | entryPointNotFound _ | mismatch (.width _) | operand (.openBlock ..)
  | operand (.unknownBlock ..) => True
  | operand (.argumentCount _ expected found) => expected = found
  | _ => False

/-- A part of a run that reports no structural error. -/
def Clean (result : Except EvalError α) : Prop :=
  ∀ error, result = .error error → ¬error.IsStructural

namespace Clean

theorem ok (a : α) : Clean (.ok a) :=
  fun _ h => nomatch h

theorem error {error : EvalError} (h : ¬error.IsStructural) :
    Clean (.error error : Except EvalError α) := by
  rintro _ ⟨⟩
  exact h

theorem bind {first : Except EvalError α} {next : α → Except EvalError β} (h : Clean first)
    (hnext : ∀ a, first = .ok a → Clean (next a)) : Clean (first >>= next) := by
  cases first with
  | error fault => exact Clean.error (h fault rfl)
  | ok a => exact hnext a rfl

theorem ite {c : Prop} [Decidable c] {result result' : Except EvalError α}
    (h : c → Clean result) (h' : ¬c → Clean result') : Clean (if c then result else result') := by
  split
  · next hc => exact h hc
  · next hc => exact h' hc

theorem mapM {f : α → Except EvalError β} {items : List α} (h : ∀ a ∈ items, Clean (f a)) :
    Clean (items.mapM f) := by
  induction items with
  | nil => exact ok []
  | cons a rest ih =>
    rw [List.mapM_cons]
    refine bind (h a List.mem_cons_self) fun b _ => ?_
    exact bind (ih fun c hc => h c (List.mem_cons_of_mem a hc)) fun bs _ => ok _

end Clean

/-- A part of a run that reports no structural error, and gives what has a property if it gives
something. -/
def Ensures (result : Except EvalError α) (holds : α → Prop) : Prop :=
  Clean result ∧ ∀ a, result = .ok a → holds a

namespace Ensures

variable {holds : α → Prop} {holds' : β → Prop}

theorem ok {a : α} (h : holds a) : Ensures (.ok a) holds :=
  ⟨Clean.ok a, fun _ heq => by cases heq; exact h⟩

theorem error {error : EvalError} (h : ¬error.IsStructural) :
    Ensures (.error error : Except EvalError α) holds :=
  ⟨Clean.error h, fun _ heq => nomatch heq⟩

theorem bind {first : Except EvalError α} {next : α → Except EvalError β}
    (h : Ensures first holds) (hnext : ∀ a, holds a → Ensures (next a) holds') :
    Ensures (first >>= next) holds' := by
  cases first with
  | error fault => exact Ensures.error (h.1 fault rfl)
  | ok a => exact hnext a (h.2 a rfl)

theorem ite {c : Prop} [Decidable c] {result result' : Except EvalError α}
    (h : c → Ensures result holds) (h' : ¬c → Ensures result' holds) :
    Ensures (if c then result else result') holds := by
  split
  · next hc => exact h hc
  · next hc => exact h' hc

end Ensures

theorem Clean.ensures {result : Except EvalError α} (h : Clean result) :
    Ensures result fun _ => True :=
  ⟨h, fun _ _ => trivial⟩

/-- What a part of a run gives does not matter to the next one. -/
theorem Clean.andThen {first : Except EvalError α} {next : α → Except EvalError β}
    {holds : β → Prop} (h : Clean first) (hnext : ∀ a, Ensures (next a) holds) :
    Ensures (first >>= next) holds :=
  h.ensures.bind fun a _ => hnext a

namespace Word

theorem clean_checkWidth {width : UInt32} (h : 1 ≤ width ∧ width ≤ 64) :
    Clean (checkWidth width) := by
  rw [checkWidth, if_pos h]
  exact Clean.ok ()

theorem clean_checkShift (op : BinaryOp) (width : UInt32) (amount : Nat) :
    Clean (checkShift op width amount) :=
  Clean.ite (fun _ => Clean.ok ()) fun _ => Clean.error id

theorem clean_checkDivisor (op : BinaryOp) (divisor : Nat) : Clean (checkDivisor op divisor) :=
  Clean.ite (fun _ => Clean.error id) fun _ => Clean.ok ()

theorem clean_binary (op : BinaryOp) {width : UInt32} (h : 1 ≤ width ∧ width ≤ 64)
    (lhs rhs : Nat) : Clean (binary op width lhs rhs) := by
  apply (clean_checkWidth h).bind
  intro _ _
  cases op with
  | shl | lshr | ashr => exact (clean_checkShift _ _ _).bind fun _ _ => Clean.ok _
  | udiv | urem | srem => exact (clean_checkDivisor _ _).bind fun _ _ => Clean.ok _
  | sdiv =>
    apply (clean_checkDivisor _ _).bind
    intro _ _
    exact Clean.ite (fun _ => (Clean.error id).bind fun _ _ => Clean.ok _) fun _ => Clean.ok _
  | _ => exact Clean.ok _

theorem clean_convert (conversion : Conversion) {source target : UInt32}
    (hsource : 1 ≤ source ∧ source ≤ 64) (htarget : 1 ≤ target ∧ target ≤ 64) (value : Nat) :
    Clean (convert conversion source value target) := by
  apply (clean_checkWidth hsource).bind
  intro _ _
  apply (clean_checkWidth htarget).bind
  intro _ _
  cases conversion with
  | _ => exact Clean.ok _

end Word

namespace Datum

theorem clean_word (width : UInt32) (datum : Datum) : Clean (datum.word width) := by
  cases datum with
  | int found bits => exact Clean.ite (fun _ => Clean.ok bits) fun _ => Clean.error id
  | _ => exact Clean.error id

theorem clean_signed64 (datum : Datum) : Clean datum.signed64 :=
  (clean_word 64 datum).bind fun _ _ => Clean.ok _

theorem clean_truth (datum : Datum) : Clean datum.truth :=
  (clean_word 1 datum).bind fun _ _ => Clean.ok _

theorem clean_number (datum : Datum) : Clean datum.number := by
  cases datum with
  | double value => exact Clean.ok value
  | _ => exact Clean.error id

theorem clean_index (register : Register) (datum : Datum) : Clean (datum.index register) := by
  cases datum with
  | pointer target =>
    cases target with
    | index index => exact Clean.ok index
    | _ => exact Clean.error id
  | _ => exact Clean.error id

theorem clean_ofConstant {ty : Ty} (h : ty.Supported) (value : Int64) :
    Clean (ofConstant ty value) := by
  cases ty with
  | int width => exact (Word.clean_checkWidth (h width rfl)).bind fun _ _ => Clean.ok _
  | double => exact Clean.ok _
  | _ => exact Clean.error id

end Datum

theorem Ty.supported_int {width : UInt32} (h : 1 ≤ width ∧ width ≤ 64) :
    (Ty.int width).Supported := by
  rintro _ ⟨⟩
  exact h

theorem Ty.supported_bool : Ty.bool.Supported := supported_int (by decide)

namespace Frame

variable (frame : Frame)

theorem clean_read (name : String) : Clean (frame.read name) := by
  rw [read]
  cases frame.registers.get? name with
  | some datum => exact Clean.ok datum
  | none => exact Clean.error id

theorem clean_datum {ty : Ty} (h : ty.Supported) (value : Value) : Clean (frame.datum ty value) := by
  cases value with
  | reg name => exact frame.clean_read name
  | int value => exact Datum.clean_ofConstant h value
  | address index => exact Clean.ite (fun _ => Clean.ok _) fun _ => Clean.error id
  | _ => exact Clean.ok _

theorem clean_operand {operand : Operand} (h : operand.ty.Supported) :
    Clean (frame.operand operand) :=
  frame.clean_datum h operand.value

theorem clean_word {width : UInt32} (h : 1 ≤ width ∧ width ≤ 64) (value : Value) :
    Clean (frame.word width value) :=
  (frame.clean_datum (Ty.supported_int h) value).bind fun _ _ => Datum.clean_word _ _

theorem clean_condition (value : Value) : Clean (frame.condition value) :=
  (frame.clean_datum Ty.supported_bool value).bind fun _ _ => Datum.clean_truth _

end Frame

theorem Intrinsic.length_params_record (kind : RecordKind) :
    (record kind).signature.params.length = 2 := by
  cases kind <;> rfl

/-- A part of a run that reports no structural error from any state. -/
def Run.Orderly (action : Run α) : Prop :=
  ∀ state, Clean (action state)

namespace Run

theorem Orderly.pure (a : α) : Run.Orderly (Pure.pure a) :=
  fun _ => Clean.ok _

theorem Orderly.bind {action : Run α} {next : α → Run β} (h : action.Orderly)
    (hnext : ∀ a, (next a).Orderly) : Run.Orderly (action >>= next) :=
  fun state => (h state).bind fun (a, after) _ => hnext a after

theorem orderly_modify (f : RunState → RunState) : Run.Orderly (modify f) :=
  fun _ => Clean.ok _

theorem orderly_ofExcept {result : Except EvalError α} (h : Clean result) :
    (ofExcept result).Orderly := by
  intro state
  cases result with
  | ok a => exact Clean.ok _
  | error error => exact Clean.error (h error rfl)

theorem orderly_qubit (datum : Datum) : (qubit datum).Orderly :=
  (orderly_ofExcept (Datum.clean_index _ datum)).bind fun _ =>
    (orderly_modify _).bind fun _ => Orderly.pure _

theorem orderly_result (datum : Datum) : (result datum).Orderly :=
  (orderly_ofExcept (Datum.clean_index _ datum)).bind fun _ =>
    (orderly_modify _).bind fun _ => Orderly.pure _

theorem orderly_outcome : outcome.Orderly := by
  intro state
  rw [outcome]
  rcases state.stream with _ | _ | ⟨value, rest⟩
  · exact Clean.ok _
  · exact Clean.error id
  · exact Clean.ok _

theorem orderly_store (index : Nat) (value : Bool) : (store index value).Orderly :=
  orderly_modify _

theorem orderly_stored? (index : Nat) : (stored? index).Orderly :=
  fun _ => Clean.ok _

theorem orderly_readResult (datum : Datum) :
    Run.Orderly (do
      let index ← result datum
      match ← stored? index with
      | some value => return value
      | none =>
        let value ← outcome
        store index value
        return value) := by
  apply (orderly_result datum).bind
  intro index
  apply (orderly_stored? index).bind
  rintro (_ | value)
  · exact orderly_outcome.bind fun value => (orderly_store _ _).bind fun _ => Orderly.pure _
  · exact Orderly.pure _

theorem orderly_read (datum : Datum) : (read datum).Orderly := by
  rw [read.eq_def]
  split
  · exact Orderly.pure _
  · exact orderly_readResult datum

theorem orderly_peek (datum : Datum) : (peek datum).Orderly := by
  rw [peek.eq_def]
  split
  · exact Orderly.pure _
  · exact (orderly_result datum).bind fun _ => (orderly_stored? _).bind fun _ => Orderly.pure _

theorem orderly_measure (index : Nat) (target : Option Nat) : (measure index target).Orderly :=
  orderly_outcome.bind fun _ => (orderly_modify _).bind fun _ => Orderly.pure _

theorem orderly_allocate : allocate.Orderly :=
  fun _ => Clean.ite (fun _ => Clean.ok _) fun _ => Clean.error id

theorem clean_label (module : Module) (datum : Datum) : Clean (label module datum) := by
  rw [label.eq_def]
  split
  · exact Clean.ok _
  · split
    · exact Clean.ok _
    · exact Clean.error id
  · exact Clean.error id

theorem orderly_record (module : Module) (value : OutputValue) (labelDatum : Datum) :
    (record module value labelDatum).Orderly :=
  (orderly_ofExcept (clean_label module labelDatum)).bind fun _ => orderly_modify _

theorem orderly_measureInto (qubitDatum resultDatum : Datum) (make : Nat → Nat → Operation) :
    (measureInto qubitDatum resultDatum make).Orderly := by
  apply (orderly_qubit qubitDatum).bind
  intro index
  apply (orderly_result resultDatum).bind
  intro target
  apply (orderly_measure index (some target)).bind
  intro value
  exact (orderly_store target value).bind fun _ => Orderly.pure _

theorem orderly_recorded (kind : RecordKind) (datum : Datum) : (recorded kind datum).Orderly := by
  cases kind with
  | result => exact (orderly_peek datum).bind fun _ => Orderly.pure _
  | bool => exact (orderly_ofExcept datum.clean_truth).bind fun _ => Orderly.pure _
  | double => exact (orderly_ofExcept datum.clean_number).bind fun _ => Orderly.pure _
  | int | array | tuple => exact (orderly_ofExcept datum.clean_signed64).bind fun _ => Orderly.pure _

/-- A function of the catalog finds all its arguments if there are as many as it has parameters. -/
theorem orderly_perform (module : Module) (intrinsic : Intrinsic) (args : List Datum) :
    (perform module intrinsic args).Orderly := by
  rw [perform.eq_def]
  split
  · exact Orderly.pure _
  · exact (orderly_qubit _).bind fun _ => (orderly_qubit _).bind fun _ =>
      (orderly_qubit _).bind fun _ => Orderly.pure _
  · exact (orderly_qubit _).bind fun _ => (orderly_qubit _).bind fun _ => Orderly.pure _
  · exact (orderly_qubit _).bind fun _ => Orderly.pure _
  · exact (orderly_ofExcept (Datum.clean_number _)).bind fun _ =>
      (orderly_qubit _).bind fun _ => Orderly.pure _
  · exact (orderly_ofExcept (Datum.clean_number _)).bind fun _ =>
      (orderly_qubit _).bind fun _ => (orderly_qubit _).bind fun _ => Orderly.pure _
  · exact (orderly_qubit _).bind fun _ => (orderly_qubit _).bind fun _ => Orderly.pure _
  · exact (orderly_qubit _).bind fun _ => Orderly.pure _
  · exact (orderly_qubit _).bind fun _ => (orderly_measure _ _).bind fun _ => Orderly.pure _
  · exact orderly_measureInto _ _ _
  · exact orderly_measureInto _ _ _
  · exact (orderly_read _).bind fun _ => Orderly.pure _
  · exact Orderly.pure _
  · exact (orderly_recorded _ _).bind fun _ => (orderly_record _ _ _).bind fun _ => Orderly.pure _
  · exact Orderly.pure _
  · exact (orderly_read _).bind fun _ => (orderly_read _).bind fun _ => Orderly.pure _
  · exact orderly_allocate.bind fun _ => Orderly.pure _
  · exact Orderly.pure _
  · next hbarrier htoffoli hcontrolled hsingle hrotate hrotatePair hswap hreset hmeasure
      hmeasureInto hmeasureReset hreadResult hsetUp hrecord hresultOf hresultEqual hallocate
      hrelease =>
    refine fun _ => Clean.error ?_
    intro hlength
    replace hlength : args.length = intrinsic.signature.params.length := hlength.symm
    cases intrinsic with
    | barrier => exact hbarrier rfl (List.length_eq_zero_iff.mp hlength)
    | resultOf value => exact hresultOf value rfl (List.length_eq_zero_iff.mp hlength)
    | qubitAllocate => exact hallocate rfl (List.length_eq_zero_iff.mp hlength)
    | single gate =>
      obtain ⟨a, ha⟩ := List.length_eq_one_iff.mp hlength
      exact hsingle gate a rfl ha
    | reset =>
      obtain ⟨a, ha⟩ := List.length_eq_one_iff.mp hlength
      exact hreset a rfl ha
    | measure =>
      obtain ⟨a, ha⟩ := List.length_eq_one_iff.mp hlength
      exact hmeasure a rfl ha
    | readResult =>
      obtain ⟨a, ha⟩ := List.length_eq_one_iff.mp hlength
      exact hreadResult a rfl ha
    | setUp =>
      obtain ⟨a, ha⟩ := List.length_eq_one_iff.mp hlength
      exact hsetUp a rfl ha
    | qubitRelease =>
      obtain ⟨a, ha⟩ := List.length_eq_one_iff.mp hlength
      exact hrelease a rfl ha
    | controlled gate =>
      obtain ⟨a, b, hab⟩ := List.length_eq_two.mp hlength
      exact hcontrolled gate a b rfl hab
    | rotate axis =>
      obtain ⟨a, b, hab⟩ := List.length_eq_two.mp hlength
      exact hrotate axis a b rfl hab
    | swap =>
      obtain ⟨a, b, hab⟩ := List.length_eq_two.mp hlength
      exact hswap a b rfl hab
    | measureInto =>
      obtain ⟨a, b, hab⟩ := List.length_eq_two.mp hlength
      exact hmeasureInto a b rfl hab
    | measureReset =>
      obtain ⟨a, b, hab⟩ := List.length_eq_two.mp hlength
      exact hmeasureReset a b rfl hab
    | record kind =>
      rw [Intrinsic.length_params_record] at hlength
      obtain ⟨a, b, hab⟩ := List.length_eq_two.mp hlength
      exact hrecord kind a b rfl hab
    | resultEqual =>
      obtain ⟨a, b, hab⟩ := List.length_eq_two.mp hlength
      exact hresultEqual a b rfl hab
    | toffoli =>
      obtain ⟨a, b, c, habc⟩ := List.length_eq_three.mp hlength
      exact htoffoli a b c rfl habc
    | rotatePair axis =>
      obtain ⟨a, b, c, habc⟩ := List.length_eq_three.mp hlength
      exact hrotatePair axis a b c rfl habc

end Run

end QuantumIR
