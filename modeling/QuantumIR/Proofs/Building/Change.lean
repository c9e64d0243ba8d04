import Mathlib
import QuantumIR.Proofs.Text.Numeral
import QuantumIR.Builder.Step

/-!
What building does to a builder. Every operation, however it ends, is a sequence of a few small
changes: an instruction is added to an open block, a number is used up, a function is declared, a
string or a block is added, another block is made the current one. What all of these keep is kept
by all that code can do with a builder.
-/

namespace QuantumIR

variable {α β : Type}

namespace Builder

/-- What a building step answers. -/
def answer (builder : Builder) (action : Building α) : Except BuildError α :=
  (action.run.run builder).1

/-- What a building step leaves, also if it fails. -/
def after (builder : Builder) (action : Building α) : Builder :=
  (action.run.run builder).2

theorem after_bind (builder : Builder) (action : Building α) (next : α → Building β) :
    builder.after (action >>= next) =
      match builder.answer action with
      | .ok a => (builder.after action).after (next a)
      | .error _ => builder.after action := by
  simp only [after, answer, ExceptT.run_bind, StateT.run_bind]
  generalize action.run.run builder = outcome
  obtain ⟨_ | _, _⟩ := outcome <;> rfl

theorem answer_bind (builder : Builder) (action : Building α) (next : α → Building β) :
    builder.answer (action >>= next) =
      match builder.answer action with
      | .ok a => (builder.after action).answer (next a)
      | .error error => .error error := by
  simp only [after, answer, ExceptT.run_bind, StateT.run_bind]
  generalize action.run.run builder = outcome
  obtain ⟨_ | _, _⟩ := outcome <;> rfl

/-- The instructions of all blocks. -/
def instructions (builder : Builder) : List Instruction :=
  builder.blocks.flatMap Block.instructions

/-- The labels of all blocks. -/
def labels (builder : Builder) : List String :=
  builder.blocks.map Block.label

/-- A builder with one more instruction in its current block. -/
def append (builder : Builder) (instruction : Instruction) : Builder :=
  { builder with blocks := builder.blocks.map fun block =>
      if block.label = builder.current then
        { block with instructions := block.instructions ++ [instruction] }
      else block }

/-- The name of the next unnamed value. -/
def nextName (builder : Builder) : String := toString builder.nextValue

/-- A declaration as a builder makes it. -/
def declarationOf (name : String) (signature : Signature) : Function :=
  { Function.declaration name signature.params signature.ret with
    attributes :=
      if (Intrinsic.ofName? name).any Intrinsic.isIrreversible then [.flag "irreversible"] else [] }

theorem declarationOf_params (name : String) (signature : Signature) :
    (declarationOf name signature).params.map Param.ty = signature.params := by
  simp [declarationOf, Function.declaration, Function.comp_def]

/-- What a builder makes sure of before it adds an instruction. -/
def Stands (builder : Builder) : Instruction → Prop
  | .call result ret callee args =>
    (result.isNone ↔ ret.isVoid) ∧ (∀ arg ∈ args, builder.checkOperand arg = .ok ()) ∧
    ∃ known ∈ builder.declarations, known.name = callee ∧ known.ret = ret ∧
      known.params.map Param.ty = args.map Operand.ty
  | .binary _ _ width _ _ | .compare _ _ width _ _ => 1 ≤ width ∧ width ≤ 64
  | .convert _ conversion source _ target =>
    (1 ≤ source ∧ source ≤ 64) ∧ (1 ≤ target ∧ target ≤ 64) ∧
      Building.changesWidth conversion source target
  | .select .. => True
  | .branch target => target ∈ builder.labels
  | .branchIf _ onTrue onFalse => onTrue ∈ builder.labels ∧ onFalse ∈ builder.labels
  | .ret operand => operand = none

/-- An instruction that a builder may add: what it binds has the name that comes next. -/
def Accepts (builder : Builder) (instruction : Instruction) : Prop :=
  builder.Stands instruction ∧ ∀ name ∈ instruction.result?, name = builder.nextName

/-- The number of the next unnamed value after an instruction. -/
def numberAfter (builder : Builder) (instruction : Instruction) : Nat :=
  if instruction.result?.isSome then builder.nextValue + 1 else builder.nextValue

/-- What may be added to a builder. -/
structure Additions where
  instruction : Instruction → Prop
  declaration : String → Signature → Prop
  text : String → Prop

/-- Anything may be added. -/
def Additions.any : Additions where
  instruction _ := True
  declaration _ _ := True
  text _ := True

/-- One small change of a builder, of those that add only what may be added. -/
inductive Change (additions : Additions) : Builder → Builder → Prop
  /-- A number is used up. -/
  | number (builder : Builder) :
      Change additions builder { builder with nextValue := builder.nextValue + 1 }
  /-- An instruction is added to the current block, which is open. -/
  | push (builder : Builder) (instruction : Instruction) :
      builder.isTerminated = false → builder.Accepts instruction →
      additions.instruction instruction →
      Change additions builder
        { builder.append instruction with nextValue := builder.numberAfter instruction }
  /-- A function is declared that was not declared before. -/
  | declare (builder : Builder) (name : String) (signature : Signature) :
      name ≠ entryName → name ∉ builder.declarations.map Function.name →
      additions.declaration name signature →
      Change additions builder
        { builder with declarations := builder.declarations ++ [declarationOf name signature] }
  /-- A string is added. -/
  | string (builder : Builder) (text : String) :
      additions.text text →
      Change additions builder
        { builder with globals := builder.globals ++
            [⟨toString builder.globals.length, Text.utf8 text.toList ++ [0]⟩] }
  /-- An empty block with a new label is added. -/
  | block (builder : Builder) (label : String) :
      label ∉ builder.labels →
      Change additions builder { builder with blocks := builder.blocks ++ [⟨label, []⟩] }
  /-- Another block is made the current one. -/
  | position (builder : Builder) (label : String) :
      label ∈ builder.labels →
      Change additions builder { builder with current := label }

variable (builder : Builder)

@[simp]
theorem after_pure (a : α) : builder.after (pure a) = builder := rfl

@[simp]
theorem after_throw (error : BuildError) : builder.after (throw error : Building α) = builder := rfl

@[simp]
theorem answer_pure (a : α) : builder.answer (pure a) = .ok a := rfl

@[simp]
theorem answer_throw (error : BuildError) :
    builder.answer (throw error : Building α) = .error error := rfl

theorem after_get_bind (next : Builder → Building α) :
    builder.after (get >>= next) = builder.after (next builder) := rfl

theorem after_check_bind (test : Builder → Except BuildError α) (next : α → Building β) :
    builder.after (Building.check test >>= next) =
      match test builder with
      | .ok a => builder.after (next a)
      | .error _ => builder := by
  rw [after_bind]
  have hanswer : builder.answer (Building.check test) = test builder := by
    change builder.answer (Building.ofExcept (test builder)) = test builder
    cases test builder <;> rfl
  have hafter : builder.after (Building.check test) = builder := by
    change builder.after (Building.ofExcept (test builder)) = builder
    cases test builder <;> rfl
  rw [hanswer, hafter]

theorem after_ensureOpen_bind (next : Unit → Building α) :
    builder.after (Building.ensureOpen >>= next) =
      if builder.isTerminated then builder else builder.after (next ()) := by
  rw [Building.ensureOpen, bind_assoc, after_get_bind]
  cases builder.isTerminated <;> rfl

theorem after_push_bind (instruction : Instruction) (next : Unit → Building α) :
    builder.after (Building.push instruction >>= next) =
      if builder.isTerminated then builder else (builder.append instruction).after (next ()) := by
  rw [Building.push, bind_assoc, after_ensureOpen_bind]
  rfl

theorem after_push (instruction : Instruction) :
    builder.after (Building.push instruction) =
      if builder.isTerminated then builder else builder.append instruction := by
  rw [Building.push, after_ensureOpen_bind]
  rfl

theorem after_freshName_bind (next : String → Building α) :
    builder.after (Building.freshName >>= next) =
      { builder with nextValue := builder.nextValue + 1 }.after (next builder.nextName) := rfl

/-- Operands are checked one after the other. -/
theorem after_checkOperands_bind (args : List Operand) (next : Unit → Building α) :
    builder.after ((args.forM fun arg => Building.check (Builder.checkOperand · arg)) >>= next) =
      if ∀ arg ∈ args, builder.checkOperand arg = .ok () then builder.after (next ())
      else builder := by
  induction args with
  | nil => simp
  | cons arg args ih =>
    have hcons : (((arg :: args).forM fun arg =>
        Building.check (Builder.checkOperand · arg)) >>= next) =
        Building.check (Builder.checkOperand · arg) >>= fun _ =>
          (args.forM fun arg => Building.check (Builder.checkOperand · arg)) >>= next :=
      bind_assoc _ _ _
    rw [hcons, after_check_bind]
    cases hcheck : builder.checkOperand arg with
    | error error => simp [hcheck]
    | ok _ =>
      simp only [ih, List.forall_mem_cons, hcheck, true_and]

/-- A function of a name that is in use has to have the declared signature. -/
theorem after_declare_bind (name : String) (signature : Signature) (next : Unit → Building α) :
    builder.after (Building.declare name signature >>= next) =
      if name = entryName then builder
      else match builder.declarations.find? fun function => function.name = name with
        | some known =>
          if ⟨known.ret, known.params.map Param.ty⟩ = signature then builder.after (next ())
          else builder
        | none =>
          { builder with declarations := builder.declarations ++ [declarationOf name signature] }.after
            (next ()) := by
  rw [Building.declare]
  by_cases hname : name = entryName
  · rw [if_pos hname, if_pos hname]
    rfl
  · rw [if_neg hname, if_neg hname]
    simp only [bind_assoc, after_get_bind]
    cases builder.declarations.find? fun function => function.name = name with
    | none => rfl
    | some known =>
      by_cases hsame : (⟨known.ret, known.params.map Param.ty⟩ : Signature) = signature
      · simp [hsame]
      · simp only [if_neg hsame]
        rw [if_pos hsame]
        rfl

/-- What a builder becomes by changes one after the other. -/
abbrev Later (additions : Additions) : Builder → Builder → Prop :=
  Relation.ReflTransGen (Change additions)

end Builder

end QuantumIR
