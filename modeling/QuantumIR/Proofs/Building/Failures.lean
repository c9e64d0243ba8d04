import QuantumIR.Proofs.Building.Finished

/-!
Steps that fail. What a step checks, it checks before it changes anything that ends up in the
finished module, with one exception: the string of an output label is added first and stays if the
record that it is for fails.
-/

namespace QuantumIR

open Builder

variable {α β : Type}

namespace Building

/-- An action that fails leaves the finished module as it was. -/
def Traceless (builder : Builder) (action : Building α) : Prop :=
  ∀ error, builder.answer action = .error error → (builder.after action).finish = builder.finish

namespace Traceless

variable {builder : Builder} {action : Building α} {next : α → Building β}

/-- An action that does not fail has nothing to leave after a failure. -/
theorem of_ok {a : α} (h : builder.answer action = .ok a) : Traceless builder action := by
  intro error herror
  rw [h] at herror
  cases herror

/-- An action that only looks leaves no trace, whether it fails or not. -/
theorem of_after_eq (h : builder.after action = builder) : Traceless builder action := by
  intro error _
  rw [h]

/-- What comes after an action that only looks may change the builder. -/
theorem bind (h : builder.after action = builder)
    (hnext : ∀ a, builder.answer action = .ok a → Traceless builder (next a)) :
    Traceless builder (action >>= next) := by
  intro error herror
  rw [answer_bind] at herror
  rw [after_bind]
  cases hanswer : builder.answer action with
  | ok a =>
    rw [hanswer, h] at herror
    dsimp only
    rw [h]
    exact hnext a hanswer error herror
  | error _ =>
    dsimp only
    rw [h]

/-- What comes after an action that changes the builder must not fail. -/
theorem bind_ok (h : Traceless builder action)
    (hnext : ∀ a, builder.answer action = .ok a →
      ∃ b, (builder.after action).answer (next a) = .ok b) :
    Traceless builder (action >>= next) := by
  intro error herror
  rw [answer_bind] at herror
  rw [after_bind]
  cases hanswer : builder.answer action with
  | ok a =>
    obtain ⟨b, hb⟩ := hnext a hanswer
    rw [hanswer] at herror
    dsimp only at herror
    rw [hb] at herror
    cases herror
  | error reason => exact h reason hanswer

/-- What an action answers plays no part in what it leaves. -/
theorem map (h : Traceless builder action) (f : α → β) :
    Traceless builder (action >>= fun a => pure (f a)) :=
  h.bind_ok fun a _ => ⟨f a, rfl⟩

end Traceless

variable {builder : Builder}

theorem after_check (test : Builder → Except BuildError α) :
    builder.after (check test) = builder := by
  change builder.after (ofExcept (test builder)) = builder
  cases test builder <;> rfl

theorem after_ensureOpen : builder.after ensureOpen = builder := by
  have hbind := after_ensureOpen_bind builder (pure : Unit → Building Unit)
  rw [bind_pure] at hbind
  rw [hbind]
  split <;> rfl

theorem answer_ensureOpen :
    builder.answer ensureOpen =
      if builder.isTerminated then .error (.terminated builder.current) else .ok () := by
  change builder.answer (if builder.isTerminated then _ else _) = _
  split <;> rfl

/-- A block that is sure to be open is open. -/
theorem isTerminated_of_ensureOpen (h : builder.answer ensureOpen = .ok ()) :
    builder.isTerminated = false := by
  rw [answer_ensureOpen] at h
  split at h
  · cases h
  · next hopen => exact (Bool.not_eq_true _).mp hopen

theorem answer_push (instruction : Instruction) :
    builder.answer (push instruction) =
      if builder.isTerminated then .error (.terminated builder.current) else .ok () := by
  rw [push, answer_bind, answer_ensureOpen]
  cases builder.isTerminated <;> rfl

theorem traceless_push (instruction : Instruction) : Traceless builder (push instruction) := by
  intro error herror
  rw [answer_push] at herror
  rw [after_push]
  split at herror
  · next hclosed => rw [if_pos hclosed]
  · cases herror

/-- A number that was used up does not show in the finished module. -/
theorem traceless_pushNamed (make : String → Instruction) : Traceless builder (pushNamed make) := by
  intro error herror
  have hrest : Traceless { builder with nextValue := builder.nextValue + 1 }
      (push (make builder.nextName) >>= fun _ => pure (Value.reg builder.nextName)) :=
    (traceless_push _).map _
  exact hrest error herror

theorem traceless_checkWidth_bind {width : UInt32} {next : Unit → Building α}
    (h : Traceless builder (next ())) : Traceless builder (checkWidth width >>= next) := by
  refine Traceless.bind ?_ fun _ _ => h
  rw [checkWidth]
  split <;> rfl

theorem after_checkTarget (label : String) : builder.after (checkTarget label) = builder := by
  have hbind := after_checkTarget_bind builder label (pure : Unit → Building Unit)
  rw [bind_pure] at hbind
  rw [hbind]
  split <;> rfl

theorem traceless_declare (name : String) (signature : Signature) :
    Traceless builder (declare name signature) := by
  rw [declare]
  split
  · exact .of_after_eq rfl
  refine Traceless.bind rfl fun known hknown => ?_
  split
  · dsimp only
    split <;> exact .of_after_eq rfl
  · exact .of_ok rfl

/-- A declaration does not touch the blocks. -/
theorem blocks_declare (builder : Builder) (name : String) (signature : Signature) :
    (builder.after (declare name signature)).blocks = builder.blocks ∧
      (builder.after (declare name signature)).current = builder.current := by
  have hbind := after_declare_bind builder name signature (pure : Unit → Building Unit)
  rw [bind_pure] at hbind
  rw [hbind]
  split
  · exact ⟨rfl, rfl⟩
  split
  · split <;> exact ⟨rfl, rfl⟩
  · exact ⟨rfl, rfl⟩

theorem isTerminated_declare (name : String) (signature : Signature) :
    (builder.after (declare name signature)).isTerminated = builder.isTerminated := by
  obtain ⟨hblocks, hcurrent⟩ := blocks_declare builder name signature
  rw [isTerminated, isTerminated, block?, block?, hblocks, hcurrent]

/-- What is left to do of a call once its function is declared goes well in an open block. -/
theorem answer_addCall {name : String} {ret : Ty} {args : List Operand}
    (h : builder.isTerminated = false) :
    ∃ value, builder.answer (do
      let result ← if ret.isVoid then pure none else some <$> freshName
      push (.call result ret name args)
      return result.map Value.reg) = .ok value := by
  cases hvoid : ret.isVoid with
  | true =>
    refine ⟨none, ?_⟩
    simp only [if_true, pure_bind]
    rw [answer_bind, answer_push, h]
    rfl
  | false =>
    have hopen : { builder with nextValue := builder.nextValue + 1 }.isTerminated = false := h
    refine ⟨some (.reg builder.nextName), ?_⟩
    simp only [Bool.false_eq_true, if_false, bind_map_left]
    change Builder.answer { builder with nextValue := builder.nextValue + 1 }
      (push (.call (some builder.nextName) ret name args) >>= fun _ => _) = _
    rw [answer_bind, answer_push, hopen]
    rfl

/-- The arguments of a call are only looked at. -/
theorem after_checkOperands (args : List Operand) :
    builder.after (args.forM fun arg => check (Builder.checkOperand · arg)) = builder := by
  have hbind := after_checkOperands_bind builder args (pure : Unit → Building Unit)
  rw [bind_pure] at hbind
  rw [hbind]
  split <;> rfl

/-- A call declares its function after all other checks, and nothing fails after that. -/
theorem traceless_call (name : String) (ret : Ty) (args : List Operand) :
    Traceless builder (call name ret args) := by
  rw [call]
  refine Traceless.bind after_ensureOpen fun _ hopen => ?_
  refine Traceless.bind (after_checkOperands args) fun _ _ => ?_
  refine (traceless_declare name _).bind_ok fun _ _ => ?_
  have hstays : (builder.after (declare name ⟨ret, args.map Operand.ty⟩)).isTerminated = false := by
    rw [isTerminated_declare]
    exact isTerminated_of_ensureOpen hopen
  exact answer_addCall hstays

/-- A call gives a value unless its function returns nothing. -/
theorem isSome_of_call {name : String} {ret : Ty} {args : List Operand} {value : Option Value}
    (hret : ret.isVoid = false) (h : Answers (call name ret args) value) : value.isSome := by
  obtain ⟨_, -, h⟩ := h.of_bind
  obtain ⟨_, -, h⟩ := h.of_bind
  obtain ⟨_, -, h⟩ := h.of_bind
  simp only [hret, Bool.false_eq_true, if_false, map_eq_pure_bind] at h
  obtain ⟨result, hresult, h⟩ := h.of_bind
  obtain ⟨name, -, hname⟩ := hresult.of_bind
  obtain ⟨_, -, h⟩ := h.of_bind
  rw [h.of_pure, hname.of_pure]
  rfl

theorem isSome_of_intrinsic {callee : Intrinsic} {args : List Value} {value : Option Value}
    (hret : callee.signature.ret.isVoid = false) (h : Answers (intrinsic callee args) value) :
    value.isSome := by
  rw [intrinsic] at h
  dsimp only at h
  split at h
  · obtain ⟨_, hthrow⟩ := h
    cases hthrow
  · exact isSome_of_call hret h

theorem traceless_intrinsic (callee : Intrinsic) (args : List Value) :
    Traceless builder (intrinsic callee args) := by
  rw [intrinsic]
  dsimp only
  split
  · exact .of_after_eq rfl
  · exact traceless_call _ _ _

theorem traceless_perform (callee : Intrinsic) (args : List Value) :
    Traceless builder (perform callee args) :=
  (traceless_intrinsic callee args).map _

/-- A function that returns a value is not called in vain. -/
theorem traceless_evaluate {callee : Intrinsic} (args : List Value)
    (hret : callee.signature.ret.isVoid = false) : Traceless builder (evaluate callee args) := by
  refine (traceless_intrinsic callee args).bind_ok fun value hvalue => ?_
  obtain ⟨found, rfl⟩ :=
    Option.isSome_iff_exists.mp (isSome_of_intrinsic hret ⟨builder, hvalue⟩)
  exact ⟨found, rfl⟩

theorem traceless_rotatePair (callee : Intrinsic) (theta : Double) (a b : Value) :
    Traceless builder (rotatePair callee theta a b) := by
  cases callee with
  | rotatePair axis => exact traceless_perform _ _
  | _ => exact .of_after_eq rfl

theorem traceless_branch (target : String) : Traceless builder (branch target) :=
  .bind (after_checkTarget target) fun _ _ => traceless_push _

theorem traceless_branchIf (condition : Value) (onTrue onFalse : String) :
    Traceless builder (branchIf condition onTrue onFalse) :=
  .bind (after_checkTarget onTrue) fun _ _ =>
    .bind (after_checkTarget onFalse) fun _ _ => traceless_push _

theorem traceless_position (label : String) : Traceless builder (position label) := by
  refine Traceless.bind rfl fun known hknown => ?_
  cases Except.ok.inj hknown
  cases hblock : (builder.block? label).isNone with
  | true => exact .of_after_eq rfl
  | false => exact .of_ok rfl

theorem traceless_convert (conversion : Conversion) (source target : UInt32) (value : Value) :
    Traceless builder (convert conversion source value target) := by
  refine traceless_checkWidth_bind (traceless_checkWidth_bind ?_)
  cases changesWidth conversion source target with
  | true => exact traceless_pushNamed _
  | false => exact .of_after_eq rfl

/-- A record with no label adds nothing before it checks. -/
theorem traceless_record (kind : RecordKind) (value : Value) :
    Traceless builder (record kind value none) :=
  traceless_perform _ _

/-- A record with a label is done after its string was added. -/
theorem finish_after_record {kind : RecordKind} {value : Value} {text : String} {error : BuildError}
    (h : builder.answer (record kind value (some text)) = .error error) :
    (builder.after (record kind value (some text))).finish =
      (builder.after (addString text)).finish := by
  have hrecord : record kind value (some text) =
      addString text >>= fun labelValue => perform (.record kind) [value, labelValue] := rfl
  obtain ⟨labelValue, hlabel⟩ : ∃ labelValue, builder.answer (addString text) = .ok labelValue :=
    ⟨_, rfl⟩
  rw [hrecord, answer_bind, hlabel] at h
  rw [hrecord, after_bind, hlabel]
  exact traceless_perform _ _ error h

end Building

namespace BuildStep

/-- A step that asks for a value asks a function that returns one. -/
def AsksForValue : BuildStep → Prop
  | evaluate callee _ => callee.signature.ret.isVoid = false
  | _ => True

/-- The label that a step adds a string for. -/
def labelText? : BuildStep → Option String
  | record _ _ label => label
  | _ => none

/-- A step without bodies and without a label leaves no trace when it fails. -/
theorem traceless_run {builder : Builder} {step : BuildStep} (hsimple : step.isStructured = false)
    (hasks : step.AsksForValue) (hlabel : step.labelText? = none) :
    Building.Traceless builder step.run := by
  cases step with
  | perform callee args =>
    rw [run]
    exact (Building.traceless_perform callee args).map _
  | evaluate callee args =>
    rw [run]
    exact (Building.traceless_evaluate args hasks).map _
  | rotatePair callee theta a b =>
    rw [run]
    exact (Building.traceless_rotatePair callee theta a b).map _
  | record kind value label =>
    cases hlabel
    rw [run]
    exact (Building.traceless_record kind value).map _
  | addString text | appendBlock label =>
    rw [run]
    exact .of_ok rfl
  | binary op width lhs rhs | compare predicate width lhs rhs =>
    rw [run]
    exact (Building.traceless_checkWidth_bind (Building.traceless_pushNamed _)).map _
  | convert conversion source value target =>
    rw [run]
    exact (Building.traceless_convert conversion source target value).map _
  | select condition ty onTrue onFalse =>
    rw [run]
    exact (Building.traceless_pushNamed _).map _
  | position label =>
    rw [run]
    exact (Building.traceless_position label).map _
  | branch target =>
    rw [run]
    exact (Building.traceless_branch target).map _
  | branchIf condition onTrue onFalse =>
    rw [run]
    exact (Building.traceless_branchIf condition onTrue onFalse).map _
  | ret =>
    rw [run]
    exact (Building.traceless_push _).map _
  | call name ret args =>
    rw [run]
    exact (Building.traceless_call name ret args).map _
  | intrinsic callee args =>
    rw [run]
    exact (Building.traceless_intrinsic callee args).map _
  | declare name signature =>
    rw [run]
    exact (Building.traceless_declare name signature).map _
  | qubit index | result index | text =>
    rw [run]
    exact (Building.Traceless.of_after_eq (Building.after_check _)).map _
  | qubits | results =>
    rw [run]
    exact .of_ok rfl
  | ifElse _ _ _ | ifResult _ _ _ => cases hsimple

end BuildStep

/-- A module with a string after all others. -/
def Module.withString (module : Module) (text : String) : Module :=
  { module with globals := module.globals ++
      [⟨toString module.globals.length, Text.utf8 text.toList ++ [0]⟩] }

namespace Builder

/-- A string that was added is the last one of the finished module. -/
theorem finish_addString (builder : Builder) (text : String) :
    (builder.after (Building.addString text)).finish =
      builder.finish.map (Module.withString · text) := by
  change finish { builder with globals := builder.globals ++
    [⟨toString builder.globals.length, Text.utf8 text.toList ++ [0]⟩] } = _
  rw [finish, finish]
  cases builder.blocks.find? fun block => block.terminator?.isNone <;> rfl

/-- What is done with an answer does not make an action fail. -/
theorem answer_of_map {action : Building α} {f : α → β} {builder : Builder} {error : BuildError}
    (h : builder.answer (action >>= fun a => pure (f a)) = .error error) :
    builder.answer action = .error error := by
  rw [answer_bind] at h
  cases hanswer : builder.answer action with
  | ok a =>
    rw [hanswer] at h
    cases h
  | error reason =>
    rw [hanswer] at h
    cases h
    rfl

/-- A step that fails leaves the finished module and its text as they were, or the reason why there
is none. Only a record with a label leaves more: the string of the label, which it adds before any
check. -/
theorem finish_of_failure {builder : Builder} {step : BuildStep} {error : BuildError}
    (hsimple : step.isStructured = false) (hasks : step.AsksForValue)
    (hfailed : builder.answer step.run = .error error) :
    (step.labelText? = none →
      (builder.after step.run).finish = builder.finish ∧
      (builder.after step.run).text = builder.text) ∧
    ∀ text, step.labelText? = some text →
      (builder.after step.run).finish = builder.finish.map (Module.withString · text) ∧
      (builder.after step.run).text =
        builder.finish.map fun module => (module.withString text).text := by
  refine ⟨fun hlabel => ?_, fun text hlabel => ?_⟩
  · have hfinish := BuildStep.traceless_run hsimple hasks hlabel error hfailed
    refine ⟨hfinish, ?_⟩
    rw [Builder.text, Builder.text, hfinish]
  · obtain ⟨kind, value, rfl⟩ : ∃ kind value, step = .record kind value (some text) := by
      cases step with
      | record kind value label => exact ⟨kind, value, by rw [← hlabel]; rfl⟩
      | _ => cases hlabel
    have hrun : (BuildStep.record kind value (some text)).run =
        Building.record kind value (some text) >>= fun _ => pure .done := by rw [BuildStep.run]
    have hrecord : builder.answer (Building.record kind value (some text)) = .error error := by
      rw [hrun] at hfailed
      exact answer_of_map hfailed
    have hfinish : (builder.after (BuildStep.record kind value (some text)).run).finish =
        builder.finish.map (Module.withString · text) := by
      rw [hrun, after_bind, hrecord]
      exact (Building.finish_after_record hrecord).trans (finish_addString builder text)
    refine ⟨hfinish, ?_⟩
    rw [Builder.text, hfinish]
    cases builder.finish <;> rfl

/-- A builder whose only block is closed by a return. -/
def returned : Builder := small.after BuildStep.ret.run

/-- A call that comes too late does not even declare its function. -/
theorem finish_after_late_call :
    returned.answer (BuildStep.call "next" .i64 []).run = .error (.terminated "entry") ∧
    (returned.after (BuildStep.call "next" .i64 []).run).finish = returned.finish := by
  have hfailed : returned.answer (BuildStep.call "next" .i64 []).run =
      .error (.terminated "entry") := by rfl
  have hasks : (BuildStep.call "next" .i64 []).AsksForValue := trivial
  exact ⟨hfailed, ((finish_of_failure rfl hasks hfailed).1 rfl).1⟩

/-- A record that comes too late. -/
def lateRecord : BuildStep := .record .result (.ofIndex 0) (some "a")

/-- A record that comes too late leaves the string of its label. -/
theorem finish_after_late_record :
    create "small" 1 1 = .ok small ∧ Session BuildStep.Any small returned ∧
    returned.answer lateRecord.run = .error (.terminated "entry") ∧
    (returned.after lateRecord.run).finish ≠ returned.finish := by
  refine ⟨by rfl, BuildStep.session_run _ _, by rfl, fun hsame => ?_⟩
  have hbefore : returned.finish.toOption.map Module.globals = some [] := by decide +kernel
  have hafter : (returned.after lateRecord.run).finish.toOption.map Module.globals =
      some [⟨"0", [97, 0]⟩] := by decide +kernel
  rw [hsame, hbefore] at hafter
  cases hafter

end Builder

end QuantumIR
