import QuantumIR.Proofs.Building.Moves

/-!
Sessions: what code makes of a builder that it uses only by the steps a builder offers. Steps
follow each other in any order, with steps between them that fail, and the bodies of a structured
branch are sessions themselves. Every session is made of small changes.
-/

namespace QuantumIR

open Builder

namespace BuildStep

/-- Whether a step has bodies. -/
def isStructured : BuildStep → Bool
  | ifElse .. | ifResult .. => true
  | _ => false

/-- A call to the catalog adds only what may be added. -/
def CallsWithin (additions : Additions) (callee : Intrinsic) (args : List Value) : Prop :=
  (args.length = callee.signature.params.length → ∀ result, additions.instruction
    (.call result callee.signature.ret callee.name (Building.typedArgs callee args))) ∧
  additions.declaration callee.name callee.signature

/-- A structured branch adds only what may be added, apart from what its bodies add. -/
def BranchesWithin (additions : Additions) (condition : Value) : Prop :=
  (∀ onTrue onFalse, additions.instruction (.branchIf condition onTrue onFalse)) ∧
  ∀ target, additions.instruction (.branch target)

/-- The operand of an output label. -/
def IsLabelValue (label : Option String) (value : Value) : Prop :=
  match label with
  | some string => ∃ name, value =
      .firstByte name (UInt64.ofNat (Text.utf8 string.toList ++ [0]).length)
  | none => value = .null

/-- A step adds only what may be added, apart from what its bodies add. -/
def Within (additions : Additions) : BuildStep → Prop
  | perform callee args | evaluate callee args | intrinsic callee args =>
    CallsWithin additions callee args
  | rotatePair callee theta a b => ∀ axis, callee = .rotatePair axis →
    CallsWithin additions callee [.double theta, a, b]
  | record kind value label => (∀ string ∈ label, additions.text string) ∧
    ∀ labelValue, IsLabelValue label labelValue →
      CallsWithin additions (.record kind) [value, labelValue]
  | addString string => additions.text string
  | binary op width lhs rhs => ∀ name, additions.instruction (.binary name op width lhs rhs)
  | compare predicate width lhs rhs =>
    ∀ name, additions.instruction (.compare name predicate width lhs rhs)
  | convert conversion source value target =>
    ∀ name, additions.instruction (.convert name conversion source value target)
  | select condition ty onTrue onFalse =>
    ∀ name, additions.instruction (.select name condition ty onTrue onFalse)
  | branch target => additions.instruction (.branch target)
  | branchIf condition onTrue onFalse => additions.instruction (.branchIf condition onTrue onFalse)
  | ret => additions.instruction (.ret none)
  | call name ty args =>
    (∀ result, additions.instruction (.call result ty name args)) ∧
      additions.declaration name ⟨ty, args.map Operand.ty⟩
  | declare name signature => additions.declaration name signature
  | ifElse condition _ _ => BranchesWithin additions condition
  | ifResult operand _ _ => CallsWithin additions .readResult [operand] ∧
    ∀ register, BranchesWithin additions (.reg register)
  | appendBlock _ | position _ | qubit _ | result _ | qubits | results | text => True

end BuildStep

/-- What code makes of a builder by steps of some kind. -/
inductive Session (steps : BuildStep → Prop) : Builder → Builder → Prop
  | refl (builder : Builder) : Session steps builder builder
  | trans {builder middle later : Builder} :
      Session steps builder middle → Session steps middle later → Session steps builder later
  | step (builder : Builder) (step : BuildStep) :
      step.isStructured = false → steps step → Session steps builder (builder.after step.run)
  /-- A structured branch. Its bodies are any code that goes on with the session. -/
  | ifElse {α β : Type} (builder : Builder) (condition : Value) (onTrue : Building α)
      (onFalse : Building β) :
      steps (.ifElse condition [] []) →
      (∀ later, Session steps later (later.after onTrue)) →
      (∀ later, Session steps later (later.after onFalse)) →
      Session steps builder (builder.after (Building.ifElse condition onTrue onFalse))
  /-- A structured branch on what a result holds. -/
  | ifResult {α β : Type} (builder : Builder) (result : Value) (onOne : Building α)
      (onZero : Building β) :
      steps (.ifResult result [] []) →
      (∀ later, Session steps later (later.after onOne)) →
      (∀ later, Session steps later (later.after onZero)) →
      Session steps builder (builder.after (Building.ifResult result onOne onZero))

namespace Building

variable {α β : Type} {additions : Additions}

theorem moves_label {label : Option String} (h : ∀ text ∈ label, additions.text text) :
    Moves additions (Building.label label) := by
  cases label with
  | some text => exact moves_addString (h text rfl)
  | none => exact .pure _

theorem Answers.label {label : Option String} {value : Value}
    (h : Answers (Building.label label) value) : BuildStep.IsLabelValue label value := by
  cases label with
  | some text =>
    obtain ⟨builder, h⟩ := h
    exact ⟨_, (Except.ok.inj h).symm⟩
  | none => exact h.of_pure

theorem moves_intrinsic_within {callee : Intrinsic} {args : List Value}
    (h : BuildStep.CallsWithin additions callee args) : Moves additions (intrinsic callee args) :=
  moves_intrinsic h.1 h.2

theorem moves_rotatePair {callee : Intrinsic} {theta : Double} {a b : Value}
    (h : ∀ axis, callee = .rotatePair axis →
      BuildStep.CallsWithin additions callee [.double theta, a, b]) :
    Moves additions (rotatePair callee theta a b) := by
  cases callee with
  | rotatePair axis => exact moves_perform (moves_intrinsic_within (h axis rfl))
  | _ => exact .throw _

theorem moves_record {kind : RecordKind} {value : Value} {label : Option String}
    (htext : ∀ text ∈ label, additions.text text)
    (h : ∀ labelValue, BuildStep.IsLabelValue label labelValue →
      BuildStep.CallsWithin additions (.record kind) [value, labelValue]) :
    Moves additions (record kind value label) :=
  (moves_label htext).bind_answers fun labelValue hlabel =>
    moves_perform (moves_intrinsic_within (h labelValue hlabel.label))

theorem moves_ifResult {result : Value} {onOne : Building α} {onZero : Building β}
    (hread : BuildStep.CallsWithin additions .readResult [result])
    (hbranch : ∀ register, BuildStep.BranchesWithin additions (.reg register))
    (hOne : Moves additions onOne) (hZero : Moves additions onZero) :
    Moves additions (ifResult result onOne onZero) := by
  apply (moves_evaluate (moves_intrinsic_within hread)).bind_answers
  intro condition hcondition
  obtain ⟨register, rfl⟩ := hcondition.evaluate
  exact moves_ifElse (hbranch register).1 (hbranch register).2 hOne hZero

/-- A step without bodies does nothing but small changes. -/
theorem moves_step {step : BuildStep} (hsimple : step.isStructured = false)
    (h : step.Within additions) : Moves additions step.run := by
  have hdone : ∀ {γ : Type} {action : Building γ} {reply : γ → Reply}, Moves additions action →
      Moves additions (action >>= fun a => pure (reply a)) :=
    fun haction => haction.bind fun _ => .pure _
  cases step with
  | perform callee args =>
    rw [BuildStep.run]
    exact hdone (moves_perform (moves_intrinsic_within h))
  | evaluate callee args =>
    rw [BuildStep.run]
    exact hdone (moves_evaluate (moves_intrinsic_within h))
  | rotatePair callee theta a b =>
    rw [BuildStep.run]
    exact hdone (moves_rotatePair h)
  | record kind value label =>
    rw [BuildStep.run]
    exact hdone (moves_record h.1 h.2)
  | addString text =>
    rw [BuildStep.run]
    exact hdone (moves_addString h)
  | binary op width lhs rhs =>
    rw [BuildStep.run]
    exact hdone (moves_binary h)
  | compare predicate width lhs rhs =>
    rw [BuildStep.run]
    exact hdone (moves_compare h)
  | convert conversion source value target =>
    rw [BuildStep.run]
    exact hdone (moves_convert h)
  | select condition ty onTrue onFalse =>
    rw [BuildStep.run]
    exact hdone (moves_select h)
  | appendBlock label =>
    rw [BuildStep.run]
    exact hdone (moves_appendBlock label)
  | position label =>
    rw [BuildStep.run]
    exact hdone (moves_position label)
  | branch target =>
    rw [BuildStep.run]
    exact hdone (moves_branch h)
  | branchIf condition onTrue onFalse =>
    rw [BuildStep.run]
    exact hdone (moves_branchIf h)
  | ret =>
    rw [BuildStep.run]
    exact hdone (moves_ret h)
  | call name ret args =>
    rw [BuildStep.run]
    exact hdone (moves_call h.1 h.2)
  | intrinsic callee args =>
    rw [BuildStep.run]
    exact hdone (moves_intrinsic_within h)
  | declare name signature =>
    rw [BuildStep.run]
    exact hdone (moves_declare h)
  | qubit index | result index =>
    rw [BuildStep.run]
    exact hdone (.check _)
  | qubits | results =>
    rw [BuildStep.run]
    exact hdone .get
  | text =>
    rw [BuildStep.run]
    exact hdone (.check _)
  | ifElse _ _ _ | ifResult _ _ _ => cases hsimple

end Building

namespace Session

variable {steps : BuildStep → Prop} {additions : Additions} {first last : Builder}

/-- A session is made of small changes that add what its steps add. -/
theorem later (h : Session steps first last)
    (hsteps : ∀ step, steps step → step.Within additions) : Later additions first last := by
  induction h with
  | refl builder => exact .refl
  | trans _ _ ih ih' => exact ih.trans ih'
  | step builder step hsimple hstep => exact Building.moves_step hsimple (hsteps step hstep) builder
  | ifElse builder condition onTrue onFalse hstep _ _ ihTrue ihFalse =>
    have hwithin := hsteps _ hstep
    exact Building.moves_ifElse hwithin.1 hwithin.2 ihTrue ihFalse builder
  | ifResult builder result onOne onZero hstep _ _ ihOne ihZero =>
    have hwithin := hsteps _ hstep
    exact Building.moves_ifResult hwithin.1 hwithin.2 ihOne ihZero builder

/-- Code that goes on with a session by several actions goes on with it by each. -/
theorem bind {α β : Type} {action : Building α} {next : α → Building β}
    (h : ∀ builder, Session steps builder (builder.after action))
    (hnext : ∀ a builder, Session steps builder (builder.after (next a))) (builder : Builder) :
    Session steps builder (builder.after (action >>= next)) := by
  rw [Builder.after_bind]
  cases builder.answer action with
  | ok a => exact (h builder).trans (hnext a _)
  | error error => exact h builder

end Session

namespace BuildStep

/-- Any steps at all. -/
abbrev Any : BuildStep → Prop := fun _ => True

mutual

theorem session_run (step : BuildStep) (builder : Builder) :
    Session Any builder (builder.after step.run) := by
  match step with
  | ifElse condition onTrue onFalse =>
    rw [run]
    exact Session.bind (fun builder => .ifElse builder condition _ _ trivial
      (session_runBody onTrue) (session_runBody onFalse)) (fun _ => .refl) builder
  | ifResult operand onOne onZero =>
    rw [run]
    exact Session.bind (fun builder => .ifResult builder operand _ _ trivial
      (session_runBody onOne) (session_runBody onZero)) (fun _ => .refl) builder
  | perform _ _ | evaluate _ _ | rotatePair _ _ _ _ | record _ _ _ | addString _ | binary _ _ _ _
  | compare _ _ _ _ | convert _ _ _ _ | select _ _ _ _ | appendBlock _ | position _ | branch _
  | branchIf _ _ _ | ret | call _ _ _ | intrinsic _ _ | declare _ _ | qubit _ | result _ | qubits
  | results | text => exact .step builder _ rfl trivial

theorem session_runBody (steps : List BuildStep) (builder : Builder) :
    Session Any builder (builder.after (runBody steps)) := by
  match steps with
  | [] =>
    rw [runBody]
    exact .refl builder
  | step :: steps =>
    rw [runBody]
    exact Session.bind (session_run step) (fun _ => Session.bind Session.refl fun _ =>
      Session.bind (session_runBody steps) fun _ => .refl) builder

end

/-- What a list of steps makes of a builder is a session, whichever of them fail. -/
theorem session_runAll (steps : List BuildStep) (builder : Builder) :
    Session Any builder ((runAll steps).run builder).2 := by
  induction steps generalizing builder with
  | nil => exact .refl builder
  | cons step steps ih => exact (session_run step builder).trans (ih _)

end BuildStep

end QuantumIR
