import QuantumIR.Proofs.Building.Bodies
import QuantumIR.Proofs.Building.Failures

/-!
What numbering keeps. The results of a finished module are numbered in the order of its blocks,
each instruction stands where it was added, and an operand that named the result of an instruction
when it was built names the result of the same instruction afterwards.
-/

namespace QuantumIR

open Builder

variable {α β : Type}

namespace Instruction

/-- An instruction without the names of registers. -/
def anonymous (instruction : Instruction) : Instruction :=
  (instruction.mapResult fun _ => "").mapValues fun
    | .reg _ => .reg ""
    | value => value

theorem anonymous_renumbered (names : Bindings String String) (instruction : Instruction) :
    (renumbered names instruction).anonymous = instruction.anonymous := by
  have hvalue : ∀ value : Value, (match renameValue names value with
      | .reg _ => Value.reg ""
      | value => value) = match value with
      | .reg _ => .reg ""
      | value => value := by
    intro value
    cases value <;> rfl
  cases instruction with
  | call result ret callee args =>
    simp [anonymous, renumbered, mapResult, mapValues, Function.comp_def, hvalue]
  | ret operand =>
    cases operand with
    | none => rfl
    | some operand => simp [anonymous, renumbered, mapResult, mapValues, hvalue]
  | _ => simp [anonymous, renumbered, mapResult, mapValues, hvalue]

/-- What an instruction with new names reads is what it read before, each with its new name. -/
theorem operands_renumbered (names : Bindings String String) (instruction : Instruction) :
    (renumbered names instruction).operands =
      instruction.operands.map fun (ty, value) => (ty, renameValue names value) := by
  cases instruction with
  | call result ret callee args =>
    simp [renumbered, mapResult, mapValues, operands, Function.comp_def]
  | ret operand => cases operand <;> rfl
  | _ => rfl

end Instruction

/-- The instruction at a place of the block of a label. -/
def instructionAt? (blocks : List Block) (label : String) (place : Nat) : Option Instruction :=
  (blocks.find? fun block => block.label = label).bind fun block => block.instructions[place]?

theorem instructionAt?_map (f : Instruction → Instruction) (blocks : List Block) (label : String)
    (place : Nat) :
    instructionAt? (blocks.map fun block =>
      { block with instructions := block.instructions.map f }) label place =
      (instructionAt? blocks label place).map f := by
  rw [instructionAt?, instructionAt?, List.find?_map]
  cases hfind : blocks.find? fun block => block.label = label with
  | none => simp [hfind]
  | some block => simp [hfind]

namespace Builder

/-- Numbering leaves every instruction at its place. -/
theorem instructionAt?_renumber (blocks : List Block) (label : String) (place : Nat) :
    instructionAt? (renumber blocks) label place =
      (instructionAt? blocks label place).map (renumbered (numbering blocks)) := by
  rw [renumber_eq, instructionAt?_map]

variable {additions : Additions} {builder later : Builder}

/-- The block of a label after an instruction was added. -/
theorem find?_append (builder : Builder) (instruction : Instruction) (label : String) :
    (builder.append instruction).blocks.find? (fun block => block.label = label) =
      (builder.blocks.find? fun block => block.label = label).map fun block =>
        if block.label = builder.current then
          { block with instructions := block.instructions ++ [instruction] }
        else block := by
  rw [append, List.find?_map]
  congr 2
  funext block
  by_cases h : block.label = builder.current
  · simp [h]
  · simp [h]

/-- An instruction that was added stays where it is. -/
theorem instructionAt?_of_change (h : Change additions builder later) {label : String} {place : Nat}
    {instruction : Instruction} (hat : instructionAt? builder.blocks label place = some instruction) :
    instructionAt? later.blocks label place = some instruction := by
  obtain ⟨block, hfind, hplace⟩ := Option.bind_eq_some_iff.mp hat
  cases h with
  | number | declare | string | position => exact hat
  | push added =>
    change instructionAt? (builder.append added).blocks label place = _
    rw [instructionAt?, find?_append, hfind]
    by_cases hcurrent : block.label = builder.current
    · have hlt : place < block.instructions.length := (List.getElem?_eq_some_iff.mp hplace).1
      simp [hcurrent, List.getElem?_append_left hlt, hplace]
    · simp [hcurrent, hplace]
  | block label' =>
    rw [instructionAt?, List.find?_append, hfind]
    exact hplace

theorem instructionAt?_of_later (h : Later additions builder later) {label : String} {place : Nat}
    {instruction : Instruction} (hat : instructionAt? builder.blocks label place = some instruction) :
    instructionAt? later.blocks label place = some instruction := by
  induction h with
  | refl => exact hat
  | tail _ hchange ih => exact instructionAt?_of_change hchange ih

/-- How many instructions the current block has. -/
def currentLength (builder : Builder) : Nat :=
  ((builder.block? builder.current).map fun block => block.instructions.length).getD 0

/-- An instruction is added at the end of the current block. -/
theorem instructionAt?_append (hcurrent : builder.current ∈ builder.labels)
    (instruction : Instruction) :
    instructionAt? (builder.append instruction).blocks builder.current builder.currentLength =
      some instruction := by
  have hfound : (builder.block? builder.current).isNone = false :=
    Bool.eq_false_iff.mpr fun hnone => Building.block?_isNone_iff.mp hnone hcurrent
  obtain ⟨block, hblock⟩ := Option.isSome_iff_exists.mp (Option.isNone_eq_false_iff.mp hfound)
  have hlabel : block.label = builder.current := by simpa using List.find?_some hblock
  rw [instructionAt?, find?_append, currentLength, hblock]
  rw [block?] at hblock
  simp [hblock, hlabel]

end Builder

/-- The register that an answer names. -/
def Reply.name? : Reply → Option String
  | .value found => found.reg?
  | _ => none

namespace Building

variable {builder : Builder}

/-- An action that goes well adds one instruction, at the end of the current block. -/
def Adds (builder : Builder) (action : Building α) (added : α → Instruction → Prop) : Prop :=
  ∀ a, builder.answer action = .ok a → ∃ instruction, added a instruction ∧
    (builder.after action).blocks = (builder.append instruction).blocks

namespace Adds

variable {action : Building α} {next : α → Building β} {added : β → Instruction → Prop}

theorem imp {added' : β → Instruction → Prop} {action : Building β} (h : Adds builder action added)
    (himp : ∀ b instruction, added b instruction → added' b instruction) :
    Adds builder action added' := by
  intro b hb
  obtain ⟨instruction, hadded, hblocks⟩ := h b hb
  exact ⟨instruction, himp b instruction hadded, hblocks⟩

/-- What comes first must not touch the blocks. -/
theorem bind (hblocks : (builder.after action).blocks = builder.blocks)
    (hcurrent : (builder.after action).current = builder.current)
    (hnext : ∀ a, builder.answer action = .ok a → Adds (builder.after action) (next a) added) :
    Adds builder (action >>= next) added := by
  intro b hb
  rw [answer_bind] at hb
  rw [after_bind]
  cases hanswer : builder.answer action with
  | ok a =>
    rw [hanswer] at hb
    obtain ⟨instruction, hinstruction, hadded⟩ := hnext a hanswer b hb
    refine ⟨instruction, hinstruction, ?_⟩
    rw [append, hblocks, hcurrent] at hadded
    exact hadded
  | error error =>
    rw [hanswer] at hb
    cases hb

/-- What is made of an answer adds nothing. -/
theorem map {f : α → β} (h : Adds builder action fun a => added (f a)) :
    Adds builder (action >>= fun a => pure (f a)) added := by
  intro b hb
  rw [answer_bind] at hb
  rw [after_bind]
  cases hanswer : builder.answer action with
  | ok a =>
    rw [hanswer] at hb
    cases hb
    exact h a hanswer
  | error error =>
    rw [hanswer] at hb
    cases hb

end Adds

theorem adds_push (instruction : Instruction) (b : β) :
    Adds builder (push instruction >>= fun _ => pure b) fun a added =>
      a = b ∧ added = instruction := by
  intro a ha
  rw [answer_bind, answer_push] at ha
  rw [after_push_bind]
  cases hopen : builder.isTerminated with
  | true =>
    rw [hopen] at ha
    cases ha
  | false =>
    rw [hopen] at ha
    cases ha
    exact ⟨instruction, ⟨rfl, rfl⟩, rfl⟩

theorem adds_pushNamed (make : String → Instruction) :
    Adds builder (pushNamed make) fun value added =>
      ∃ name, value = .reg name ∧ added = make name := by
  refine Adds.bind rfl rfl fun name _ => (adds_push _ _).imp ?_
  rintro _ _ ⟨rfl, rfl⟩
  exact ⟨name, rfl, rfl⟩

theorem adds_checkWidth_bind {width : UInt32} {next : Unit → Building α}
    {added : α → Instruction → Prop} (h : Adds builder (next ()) added) :
    Adds builder (checkWidth width >>= next) added := by
  have hafter : builder.after (checkWidth width) = builder := by
    rw [checkWidth]
    split <;> rfl
  refine Adds.bind (by rw [hafter]) (by rw [hafter]) fun _ _ => ?_
  rw [hafter]
  exact h

theorem adds_convert (conversion : Conversion) (source : UInt32) (operand : Value)
    (target : UInt32) : Adds builder (convert conversion source operand target) fun value added =>
      ∃ name, value = .reg name ∧ added = .convert name conversion source operand target := by
  refine adds_checkWidth_bind (adds_checkWidth_bind ?_)
  cases changesWidth conversion source target with
  | true => exact adds_pushNamed _
  | false => exact fun _ hthrow => by cases hthrow

/-- A call binds the register that it answers, if it answers one. -/
theorem adds_call (name : String) (ret : Ty) (args : List Operand) :
    Adds builder (call name ret args) fun value added => ∃ result, value = result.map .reg ∧
      added = .call result ret name args ∧ (result.isNone ↔ ret.isVoid) := by
  rw [call]
  refine Adds.bind (by rw [after_ensureOpen]) (by rw [after_ensureOpen]) fun _ _ => ?_
  refine Adds.bind (by rw [after_checkOperands]) (by rw [after_checkOperands]) fun _ _ => ?_
  refine Adds.bind (blocks_declare _ name _).1 (blocks_declare _ name _).2 fun _ _ => ?_
  cases ret.isVoid with
  | true =>
    simp only [if_true, pure_bind]
    refine (adds_push _ _).imp ?_
    rintro _ _ ⟨rfl, rfl⟩
    exact ⟨none, rfl, rfl, by simp⟩
  | false =>
    simp only [Bool.false_eq_true, if_false, bind_map_left]
    refine Adds.bind rfl rfl fun number _ => (adds_push _ _).imp ?_
    rintro _ _ ⟨rfl, rfl⟩
    exact ⟨some number, rfl, rfl, by simp⟩

/-- A call of a function of the catalog passes each argument at the type of its parameter. -/
theorem adds_intrinsic (callee : Intrinsic) (args : List Value) :
    Adds builder (intrinsic callee args) fun value added => ∃ result, value = result.map .reg ∧
      added = .call result callee.signature.ret callee.name (typedArgs callee args) ∧
      (result.isNone ↔ callee.signature.ret.isVoid) := by
  rw [intrinsic]
  dsimp only
  split
  · exact fun _ hthrow => by cases hthrow
  · exact adds_call _ _ _

theorem adds_evaluate (callee : Intrinsic) (args : List Value) :
    Adds builder (evaluate callee args) fun value added => ∃ name, value = .reg name ∧
      added.result? = some name := by
  intro value hvalue
  rw [evaluate, answer_bind] at hvalue
  rw [evaluate, after_bind]
  cases hanswer : builder.answer (intrinsic callee args) with
  | ok found =>
    rw [hanswer] at hvalue
    cases found with
    | some found =>
      cases hvalue
      obtain ⟨added, ⟨_ | name, hfound, rfl, -⟩, hadded⟩ := adds_intrinsic callee args _ hanswer
      · cases hfound
      · cases hfound
        exact ⟨_, ⟨name, rfl, rfl⟩, hadded⟩
    | none => cases hvalue
  | error error =>
    rw [hanswer] at hvalue
    cases hvalue

/-- An action whose answer names a register adds one instruction, at the end of the current block,
that binds this register. -/
def Binds (builder : Builder) (action : Building α) (name? : α → Option String) : Prop :=
  ∀ a, builder.answer action = .ok a → ∀ name, name? a = some name →
    ∃ added, added.result? = some name ∧ (builder.after action).blocks = (builder.append added).blocks

theorem Binds.of_none {action : Building α} {name? : α → Option String}
    (h : ∀ a, builder.answer action = .ok a → name? a = none) : Binds builder action name? := by
  intro a ha name hname
  rw [h a ha] at hname
  cases hname

/-- What is made of an answer adds nothing. -/
theorem Binds.map {action : Building α} {name? : β → Option String} {f : α → β}
    (h : Binds builder action (name? ∘ f)) :
    Binds builder (action >>= fun a => pure (f a)) name? := by
  intro b hb name hname
  rw [answer_bind] at hb
  rw [after_bind]
  cases hanswer : builder.answer action with
  | ok a =>
    rw [hanswer] at hb
    cases hb
    exact h a hanswer name hname
  | error error =>
    rw [hanswer] at hb
    cases hb

theorem Adds.binds {action : Building α} {added : α → Instruction → Prop}
    {name? : α → Option String} (h : Adds builder action added)
    (hbinds : ∀ a instruction, added a instruction → ∀ name, name? a = some name →
      instruction.result? = some name) : Binds builder action name? := by
  intro a ha name hname
  obtain ⟨instruction, hadded, hblocks⟩ := h a ha
  exact ⟨instruction, hbinds a instruction hadded name hname, hblocks⟩

theorem binds_value {action : Building Value} {make : String → Instruction}
    (h : Adds builder action fun value added => ∃ name, value = .reg name ∧ added = make name)
    (hmake : ∀ name, (make name).result? = some name) : Binds builder action Value.reg? := by
  refine h.binds ?_
  rintro _ _ ⟨name, rfl, rfl⟩ _ ⟨⟩
  exact hmake name

theorem binds_call {action : Building (Option Value)} {ret : Ty} {callee : String}
    {args : List Operand} (h : Adds builder action fun value added => ∃ result : Option String,
      value = result.map .reg ∧ added = .call result ret callee args ∧
        (result.isNone ↔ ret.isVoid)) :
    Binds builder action (Reply.name? ∘ Reply.ofValue?) := by
  refine h.binds ?_
  rintro _ _ ⟨result, rfl, rfl, -⟩ name hname
  cases result with
  | none => cases hname
  | some found => exact hname

end Building

/-- A step without bodies binds the register that it answers. -/
theorem BuildStep.binds_run {builder : Builder} {step : BuildStep}
    (hsimple : step.isStructured = false) : Building.Binds builder step.run Reply.name? := by
  cases step with
  | evaluate callee args =>
    rw [run]
    refine Building.Binds.map ((Building.adds_evaluate callee args).binds ?_)
    rintro _ added ⟨name, rfl, hresult⟩ _ ⟨⟩
    exact hresult
  | addString text =>
    rw [run]
    refine Building.Binds.map (.of_none fun value hvalue => ?_)
    cases Except.ok.inj hvalue
    rfl
  | binary op width lhs rhs | compare predicate width lhs rhs =>
    rw [run]
    exact (Building.binds_value (Building.adds_checkWidth_bind (Building.adds_pushNamed _))
      fun _ => rfl).map
  | convert conversion source value target =>
    rw [run]
    exact (Building.binds_value (Building.adds_convert conversion source value target)
      fun _ => rfl).map
  | select condition ty onTrue onFalse =>
    rw [run]
    exact (Building.binds_value (Building.adds_pushNamed _) fun _ => rfl).map
  | call name ret args =>
    rw [run]
    exact Building.Binds.map (Building.binds_call (Building.adds_call name ret args))
  | intrinsic callee args =>
    rw [run]
    exact Building.Binds.map (Building.binds_call (Building.adds_intrinsic callee args))
  | perform _ _ | rotatePair _ _ _ _ | record _ _ _ | appendBlock _ | position _ | branch _
  | branchIf _ _ _ | ret | declare _ _ | qubit _ | result _ | qubits | results | text =>
    rw [run]
    exact Building.Binds.map (.of_none fun _ _ => rfl)
  | ifElse _ _ _ | ifResult _ _ _ => cases hsimple

namespace Builder

/-- The labels of blocks with their instructions, without the names of registers. -/
def anonymousBlocks (blocks : List Block) : List (String × List Instruction) :=
  blocks.map fun block => (block.label, block.instructions.map Instruction.anonymous)

theorem anonymousBlocks_renumber (blocks : List Block) :
    anonymousBlocks (renumber blocks) = anonymousBlocks blocks := by
  rw [anonymousBlocks, anonymousBlocks, renumber_eq, List.map_map]
  refine List.map_congr_left fun block _ => ?_
  simp [Instruction.anonymous_renumbered]

/-- An operand that is a register has the new name of this register at the same place. -/
theorem operand_renumbered {names : Bindings String String} {instruction : Instruction} {index : Nat}
    {ty : Option Ty} {name : String} (h : instruction.operands[index]? = some (ty, .reg name)) :
    (renumbered names instruction).operands[index]? = some (ty, .reg (rename names name)) := by
  rw [Instruction.operands_renumbered, List.getElem?_map, h]
  rfl

/-- In a finished module the results are numbered in the order of the blocks. An operand that was
the answer of a step names the result of the instruction that this step added, whether the step was
done by itself or in the body of a structured branch, wherever the blocks were filled and whichever
steps failed. Nothing else of the instructions has changed. -/
theorem bindings_of_finish {name : String} {qubits results : Int} {first last : Builder}
    {module : Module} (hcreate : create name qubits results = .ok first)
    (hsession : Session BuildStep.Any first last) (hfinish : last.finish = .ok module) :
    ∃ entry, module.functions = entry :: last.declarations ∧
      (∃ count, entry.instructions.filterMap Instruction.result? =
        (List.range count).map toString) ∧
      anonymousBlocks entry.blocks = anonymousBlocks last.blocks ∧
      ∀ (middle : Builder) (step : BuildStep) (reply : Reply) (register : String),
        Includes first last middle step → middle.answer step.run = .ok reply →
        reply.name? = some register →
        ∃ added fresh, (middle.after step.run).blocks = (middle.append added).blocks ∧
          instructionAt? last.blocks middle.current middle.currentLength = some added ∧
          (instructionAt? entry.blocks middle.current middle.currentLength).bind
            Instruction.result? = some fresh ∧
          ∀ (label : String) (place : Nat) (old new : Instruction),
            instructionAt? last.blocks label place = some old →
            instructionAt? entry.blocks label place = some new →
            ∀ (index : Nat) (ty : Option Ty), old.operands[index]? = some (ty, .reg register) →
              new.operands[index]? = some (ty, .reg fresh) := by
  obtain ⟨-, rfl⟩ := finish_eq_ok hfinish
  have hany : ∀ step, BuildStep.Any step → step.Within .any := fun step _ => within_any step
  have hsound : last.Sound .any := sound_of_session hcreate hsession hany
  refine ⟨last.entry, rfl, ⟨_, boundNames_renumber hsound.results⟩,
    anonymousBlocks_renumber last.blocks, ?_⟩
  intro middle step reply register hincludes hanswer hregister
  have hmiddle : middle.Sound .any := sound_of_session hcreate hincludes.before hany
  obtain ⟨added, hresult, hadded⟩ := step.binds_run hincludes.simple reply hanswer register hregister
  have hat : instructionAt? last.blocks middle.current middle.currentLength = some added := by
    refine instructionAt?_of_later (hincludes.after.later hany) ?_
    rw [hadded]
    exact instructionAt?_append hmiddle.current added
  refine ⟨added, rename (numbering last.blocks) register, hadded, hat, ?_, ?_⟩
  · rw [entry, instructionAt?_renumber, hat]
    simp [renumbered, hresult]
  · intro label place old new hold hnew index ty hoperand
    rw [entry, instructionAt?_renumber, hold] at hnew
    cases hnew
    exact operand_renumbered hoperand

/-- A sum. -/
def sumStep : BuildStep := .binary .add 8 (.int 1) (.int 2)

/-- A branch inside the first body of a branch. Its blocks stand after those of the outer one, but
the sum in the first of them is done before the product in the second body of the outer one. -/
def nestedStep : BuildStep :=
  .ifElse (.int 1) [.ifElse (.int 0) [sumStep] []] [.binary .mul 8 (.int 3) (.int 4)]

/-- The builder on which the sum is done. -/
def beforeSum : Builder :=
  (small.after (Building.openBranch (.int 1))).after (Building.openBranch (.int 0))

/-- The sum less the product. -/
def differenceStep : BuildStep := .binary .sub 8 (.reg "0") (.reg "1")

def crossed : Builder :=
  ((small.after nestedStep.run).after differenceStep.run).after BuildStep.ret.run

/-- The sum is called 0 when it is added, and so is the product in the finished module. The
difference still starts with the sum. -/
theorem bindings_crossed :
    beforeSum.answer sumStep.run = .ok (.value (.reg "0")) ∧
    ∃ entry fresh difference, crossed.finished.functions = entry :: crossed.declarations ∧
      (instructionAt? entry.blocks beforeSum.current beforeSum.currentLength).bind
        Instruction.result? = some fresh ∧
      instructionAt? entry.blocks "continue" 0 = some difference ∧
      difference.operands[0]? = some (none, .reg fresh) := by
  have hcreate : create "small" 1 1 = .ok small := by rfl
  have hrest : Session BuildStep.Any (small.after nestedStep.run) crossed :=
    (BuildStep.session_run _ _).trans (BuildStep.session_run _ _)
  have hsession : Session BuildStep.Any small crossed := (BuildStep.session_run _ _).trans hrest
  have hfinish : crossed.finish = .ok crossed.finished :=
    finish_of_terminated (by decide +kernel)
  have hdoes : nestedStep.Does small sumStep beforeSum :=
    .onTrue rfl (.head (.onTrue rfl (.head (.self rfl))))
  have hincludes : Includes small crossed beforeSum sumStep := hdoes.includes.extend (.refl _) hrest
  have hanswer : beforeSum.answer sumStep.run = .ok (.value (.reg "0")) := by rfl
  have hbuilt : instructionAt? crossed.blocks "continue" 0 =
      some (.binary "2" .sub 8 (.reg "0") (.reg "1")) := by
    decide +kernel
  obtain ⟨entry, hentry, -, -, hbindings⟩ := bindings_of_finish hcreate hsession hfinish
  obtain ⟨added, fresh, -, -, hfresh, hoperands⟩ :=
    hbindings beforeSum sumStep _ "0" hincludes hanswer rfl
  obtain ⟨rfl, -⟩ := List.cons_eq_cons.mp hentry
  obtain ⟨difference, hdifference⟩ : ∃ difference,
      instructionAt? crossed.entry.blocks "continue" 0 = some difference :=
    Option.isSome_iff_exists.mp (by decide +kernel)
  exact ⟨hanswer, _, fresh, difference, hentry, hfresh, hdifference,
    hoperands "continue" 0 _ difference hbuilt hdifference 0 _ rfl⟩

end Builder

end QuantumIR
