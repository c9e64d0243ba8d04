import QuantumIR.Proofs.Building.Session

/-!
Steps inside the bodies of structured branches. A structured branch opens its blocks, does its first
body, moves on to its second one and from there to the block after it, all of which could be done by
steps one after the other. So a step in a body is a step of the session that the branch belongs to.
-/

namespace QuantumIR

open Builder

variable {α β : Type}

/-- A session from one builder to another includes a step without bodies that is done on a builder
between them. -/
structure Includes (first last middle : Builder) (step : BuildStep) : Prop where
  simple : step.isStructured = false
  before : Session BuildStep.Any first middle
  after : Session BuildStep.Any (middle.after step.run) last

namespace Includes

variable {first last middle earlier later : Builder} {step : BuildStep}

/-- The way may begin earlier and end later. -/
theorem extend (h : Includes first last middle step) (hbefore : Session BuildStep.Any earlier first)
    (hafter : Session BuildStep.Any last later) : Includes earlier later middle step :=
  ⟨h.simple, hbefore.trans h.before, h.after.trans hafter⟩

/-- A step is done on its own way. -/
theorem self (hsimple : step.isStructured = false) (builder : Builder) :
    Includes builder (builder.after step.run) builder step :=
  ⟨hsimple, .refl builder, .refl _⟩

end Includes

/-- An action that is a session wherever it begins. -/
def Building.IsSession (action : Building α) : Prop :=
  ∀ builder, Session BuildStep.Any builder (builder.after action)

namespace Building

variable {action : Building α} {next : α → Building β} {builder middle : Builder} {step : BuildStep}

/-- A step in the first of two actions is a step of both, whether the first one fails or not. -/
theorem includes_bind_first (h : Includes builder (builder.after action) middle step)
    (hnext : ∀ a, (next a).IsSession) :
    Includes builder (builder.after (action >>= next)) middle step := by
  rw [after_bind]
  cases builder.answer action with
  | ok a => exact h.extend (.refl builder) (hnext a _)
  | error error => exact h

/-- The second action is done if the first one goes well. -/
theorem includes_bind_second {a : α} (haction : action.IsSession)
    (hanswer : builder.answer action = .ok a)
    (h : Includes (builder.after action) ((builder.after action).after (next a)) middle step) :
    Includes builder (builder.after (action >>= next)) middle step := by
  rw [after_bind, hanswer]
  exact h.extend (haction builder) (.refl _)

theorem IsSession.bind (h : action.IsSession) (hnext : ∀ a, (next a).IsSession) :
    (action >>= next).IsSession :=
  Session.bind h hnext

theorem isSession_pure (a : α) : (pure a : Building α).IsSession := Session.refl

/-- What is made of the answer of an action does not matter. -/
theorem isSession_of_step {f : α → Reply} (step : BuildStep) (hsimple : step.isStructured = false)
    (hrun : step.run = action >>= fun a => pure (f a)) : action.IsSession := by
  intro builder
  have hafter : builder.after step.run = builder.after action := by
    rw [hrun, after_bind]
    cases builder.answer action <;> rfl
  exact hafter ▸ .step builder step hsimple trivial

theorem isSession_appendBlock (label : String) : (appendBlock label).IsSession :=
  isSession_of_step (.appendBlock label) rfl (by rw [BuildStep.run])

theorem isSession_position (label : String) : (position label).IsSession :=
  isSession_of_step (.position label) rfl (by rw [BuildStep.run])

theorem isSession_branchIf (condition : Value) (onTrue onFalse : String) :
    (branchIf condition onTrue onFalse).IsSession :=
  isSession_of_step (.branchIf condition onTrue onFalse) rfl (by rw [BuildStep.run])

theorem isSession_evaluate (callee : Intrinsic) (args : List Value) :
    (evaluate callee args).IsSession :=
  isSession_of_step (.evaluate callee args) rfl (by rw [BuildStep.run])

theorem isSession_ensureOpen : ensureOpen.IsSession := by
  intro builder
  have hbind := after_ensureOpen_bind builder (pure : Unit → Building Unit)
  rw [bind_pure] at hbind
  rw [hbind]
  split <;> exact .refl builder

theorem isSession_fallThrough (target : String) : (fallThrough target).IsSession := by
  have hbranch : (branch target).IsSession :=
    isSession_of_step (.branch target) rfl (by rw [BuildStep.run])
  refine IsSession.bind Session.refl fun builder => ?_
  split
  · exact hbranch
  · exact isSession_pure ()

/-- Opens the three blocks of a structured branch, up to where its first body begins. -/
def openBranch (condition : Value) : Building (String × String × String) := do
  ensureOpen
  let thenLabel ← appendBlock "then"
  let elseLabel ← appendBlock "else"
  branchIf condition thenLabel elseLabel
  let next ← appendBlock "continue"
  position thenLabel
  return (thenLabel, elseLabel, next)

/-- Leaves a body for the block after the branch, and goes on building another block. -/
def leaveBody (next target : String) : Building Unit := do
  fallThrough next
  position target

theorem ifElse_eq (condition : Value) (onTrue : Building α) (onFalse : Building β) :
    ifElse condition onTrue onFalse = (do
      let labels ← openBranch condition
      let a ← onTrue
      leaveBody labels.2.2 labels.2.1
      let b ← onFalse
      leaveBody labels.2.2 labels.2.2
      return (a, b)) := by
  simp [ifElse, openBranch, leaveBody]

theorem isSession_openBranch (condition : Value) : (openBranch condition).IsSession :=
  isSession_ensureOpen.bind fun _ =>
    (isSession_appendBlock _).bind fun _ =>
      (isSession_appendBlock _).bind fun _ =>
        (isSession_branchIf _ _ _).bind fun _ =>
          (isSession_appendBlock _).bind fun _ =>
            (isSession_position _).bind fun _ => isSession_pure _

theorem isSession_leaveBody (next target : String) : (leaveBody next target).IsSession :=
  (isSession_fallThrough next).bind fun _ => isSession_position target

section Branches

variable {condition : Value} {onTrue : Building α} {onFalse : Building β}
  {labels : String × String × String}

/-- A step of the first body is a step of the structured branch. -/
theorem includes_onTrue (hopen : builder.answer (openBranch condition) = .ok labels)
    (hFalse : onFalse.IsSession)
    (h : Includes (builder.after (openBranch condition))
      ((builder.after (openBranch condition)).after onTrue) middle step) :
    Includes builder (builder.after (ifElse condition onTrue onFalse)) middle step := by
  rw [ifElse_eq]
  refine includes_bind_second (isSession_openBranch condition) hopen ?_
  refine includes_bind_first h fun a => ?_
  exact (isSession_leaveBody _ _).bind fun _ => hFalse.bind fun _ =>
    (isSession_leaveBody _ _).bind fun _ => isSession_pure _

/-- A step of the second body is a step of the structured branch. -/
theorem includes_onFalse {a : α} {left : Builder} (hTrue : onTrue.IsSession)
    (hopen : builder.answer (openBranch condition) = .ok labels)
    (hanswer : (builder.after (openBranch condition)).answer onTrue = .ok a)
    (hleft : left = (builder.after (openBranch condition)).after onTrue)
    (hleave : left.answer (leaveBody labels.2.2 labels.2.1) = .ok ())
    (h : Includes (left.after (leaveBody labels.2.2 labels.2.1))
      ((left.after (leaveBody labels.2.2 labels.2.1)).after onFalse) middle step) :
    Includes builder (builder.after (ifElse condition onTrue onFalse)) middle step := by
  subst hleft
  rw [ifElse_eq]
  refine includes_bind_second (isSession_openBranch condition) hopen ?_
  refine includes_bind_second hTrue hanswer ?_
  refine includes_bind_second (isSession_leaveBody _ _) hleave (includes_bind_first h fun b => ?_)
  exact (isSession_leaveBody _ _).bind fun _ => isSession_pure _

/-- A branch on a result reads the result and then branches on what it holds. -/
theorem includes_ifResult {result : Value}
    (hread : builder.answer (evaluate .readResult [result]) = .ok condition)
    (h : Includes (builder.after (evaluate .readResult [result]))
      ((builder.after (evaluate .readResult [result])).after (ifElse condition onTrue onFalse))
      middle step) :
    Includes builder (builder.after (ifResult result onTrue onFalse)) middle step :=
  includes_bind_second (isSession_evaluate _ _) hread h

end Branches

end Building

namespace BuildStep

open Building

variable {builder middle : Builder} {step inner : BuildStep} {steps : List BuildStep}

theorem isSession_runBody (steps : List BuildStep) : (runBody steps).IsSession :=
  session_runBody steps

theorem includes_head (h : Includes builder (builder.after step.run) middle inner) :
    Includes builder (builder.after (runBody (step :: steps))) middle inner := by
  rw [runBody]
  exact includes_bind_first h fun _ => IsSession.bind Session.refl fun _ =>
    (isSession_runBody steps).bind fun _ => isSession_pure _

theorem includes_tail {reply : Reply} (hstep : builder.answer step.run = .ok reply)
    (h : Includes (builder.after step.run) ((builder.after step.run).after (runBody steps)) middle
      inner) :
    Includes builder (builder.after (runBody (step :: steps))) middle inner := by
  rw [runBody]
  refine includes_bind_second (session_run step) hstep ?_
  refine includes_bind_second (a := builder.after step.run) Session.refl rfl ?_
  exact includes_bind_first h fun _ => isSession_pure _

mutual

/-- The steps without bodies that are done on the way of a step, each with the builder on which it
is done: the step itself, or the steps in its bodies as far as these are reached. -/
inductive Does : BuildStep → Builder → BuildStep → Builder → Prop
  | self {step : BuildStep} {builder : Builder} : step.isStructured = false →
      Does step builder step builder
  | onTrue {condition : Value} {onTrue onFalse : List BuildStep} {builder middle : Builder}
      {inner : BuildStep} {labels : String × String × String} :
      builder.answer (openBranch condition) = .ok labels →
      DoesInBody onTrue (builder.after (openBranch condition)) inner middle →
      Does (.ifElse condition onTrue onFalse) builder inner middle
  | onFalse {condition : Value} {onTrue onFalse : List BuildStep} {builder left middle : Builder}
      {inner : BuildStep} {labels : String × String × String} {replies : List (Reply × String)} :
      builder.answer (openBranch condition) = .ok labels →
      (builder.after (openBranch condition)).answer (runBody onTrue) = .ok replies →
      left = (builder.after (openBranch condition)).after (runBody onTrue) →
      left.answer (leaveBody labels.2.2 labels.2.1) = .ok () →
      DoesInBody onFalse (left.after (leaveBody labels.2.2 labels.2.1)) inner middle →
      Does (.ifElse condition onTrue onFalse) builder inner middle
  | afterReading {result condition : Value} {onOne onZero : List BuildStep}
      {builder middle : Builder} {inner : BuildStep} :
      builder.answer (Building.evaluate .readResult [result]) = .ok condition →
      Does (.ifElse condition onOne onZero) (builder.after (Building.evaluate .readResult [result]))
        inner middle →
      Does (.ifResult result onOne onZero) builder inner middle

/-- The steps without bodies that are done on the way of a body. -/
inductive DoesInBody : List BuildStep → Builder → BuildStep → Builder → Prop
  | head {step inner : BuildStep} {steps : List BuildStep} {builder middle : Builder} :
      Does step builder inner middle → DoesInBody (step :: steps) builder inner middle
  | tail {step inner : BuildStep} {steps : List BuildStep} {builder middle : Builder}
      {reply : Reply} :
      builder.answer step.run = .ok reply →
      DoesInBody steps (builder.after step.run) inner middle →
      DoesInBody (step :: steps) builder inner middle

end

/-- What is made of the answer of a structured branch does not matter. -/
theorem after_run_ifElse (condition : Value) (onTrue onFalse : List BuildStep) :
    builder.after (BuildStep.ifElse condition onTrue onFalse).run =
      builder.after (Building.ifElse condition (runBody onTrue) (runBody onFalse)) := by
  rw [run, after_bind]
  cases builder.answer (Building.ifElse condition (runBody onTrue) (runBody onFalse)) <;> rfl

theorem after_run_ifResult (result : Value) (onOne onZero : List BuildStep) :
    builder.after (BuildStep.ifResult result onOne onZero).run =
      builder.after (Building.ifResult result (runBody onOne) (runBody onZero)) := by
  rw [run, after_bind]
  cases builder.answer (Building.ifResult result (runBody onOne) (runBody onZero)) <;> rfl

mutual

/-- A step in a body, however deep, is done on the way of the outermost step. -/
theorem Does.includes {step inner : BuildStep} {builder middle : Builder}
    (h : Does step builder inner middle) :
    Includes builder (builder.after step.run) middle inner := by
  match h with
  | .self hsimple => exact Includes.self hsimple builder
  | .onTrue hopen hbody =>
    rw [after_run_ifElse]
    exact includes_onTrue hopen (isSession_runBody _) hbody.includes
  | .onFalse hopen hanswer hleft hleave hbody =>
    rw [after_run_ifElse]
    exact includes_onFalse (isSession_runBody _) hopen hanswer hleft hleave hbody.includes
  | .afterReading hread hbranch =>
    rw [after_run_ifResult]
    have hincludes := hbranch.includes
    rw [after_run_ifElse] at hincludes
    exact includes_ifResult hread hincludes

theorem DoesInBody.includes {steps : List BuildStep} {inner : BuildStep} {builder middle : Builder}
    (h : DoesInBody steps builder inner middle) :
    Includes builder (builder.after (runBody steps)) middle inner := by
  match h with
  | .head hstep => exact includes_head hstep.includes
  | .tail hanswer hbody => exact includes_tail hanswer hbody.includes

end

end BuildStep

end QuantumIR
