import QuantumIR.Proofs.Reading.Faithful

/-!
The module that the canonical text of a module spells has the same canonical text, unless an
integer constant stands where a floating-point number is expected.
-/

namespace QuantumIR

/-- A constant that is no integer at the type of floating-point numbers. -/
def Value.Plain (value : Value) (ty : Ty) : Prop :=
  match value with
  | .int _ => ty ≠ .double
  | _ => True

instance Value.decidablePlain : (value : Value) → (ty : Ty) → Decidable (value.Plain ty)
  | .int _, ty => inferInstanceAs (Decidable (ty ≠ .double))
  | .reg _, _ | .double _, _ | .null, _ | .address _, _ | .global _, _ | .firstByte .., _ =>
    isTrue trivial

/-- No integer constant stands where a floating-point number is expected. -/
def Instruction.Plain (instruction : Instruction) : Prop :=
  ∀ use ∈ instruction.uses, use.2.Plain use.1

instance (instruction : Instruction) : Decidable instruction.Plain :=
  inferInstanceAs (Decidable (∀ use ∈ instruction.uses, use.2.Plain use.1))

def Module.Plain (module : Module) : Prop :=
  ∀ function ∈ module.functions, ∀ instruction ∈ function.instructions, instruction.Plain

instance (module : Module) : Decidable module.Plain :=
  inferInstanceAs (Decidable
    (∀ function ∈ module.functions, ∀ instruction ∈ function.instructions, instruction.Plain))

theorem Value.text_canonical {value : Value} {ty : Ty} (h : value.Plain ty) :
    (value.canonical ty).text ty = value.text ty := by
  cases value with
  | int n =>
    have hcanonical : (Value.int n).canonical ty =
        if ty = .bool then .int (if n = 0 then 0 else 1)
        else if ty.isDouble then .double (.ofInt n.toInt) else .int n := rfl
    have htext : ∀ m : Int64, (Value.int m).text ty =
        if ty = .bool then (if m = 0 then "false" else "true") else toString m.toInt :=
      fun _ => rfl
    have hplain : ty ≠ .double := h
    rw [hcanonical]
    by_cases hbool : ty = .bool
    · rw [if_pos hbool, htext, htext, if_pos hbool, if_pos hbool]
      by_cases hzero : n = 0
      · rw [if_pos hzero, if_pos hzero, if_pos rfl]
      · have hone : (1 : Int64) ≠ 0 := by decide
        rw [if_neg hzero, if_neg hzero, if_neg hone]
    · rw [if_neg hbool, if_neg (by rwa [Ty.isDouble_iff])]
  | _ => rfl

theorem Operand.text_canonical {operand : Operand} (h : operand.value.Plain operand.ty) :
    operand.canonical.text = operand.text := by
  rw [Operand.text, Operand.text, Operand.canonical, Value.text_canonical h]

namespace Instruction

variable {instruction : Instruction}

theorem text_canonical (h : instruction.Plain) : instruction.canonical.text = instruction.text := by
  cases instruction with
  | call result ret callee args =>
    have hargs : (args.map Operand.canonical).map Operand.text = args.map Operand.text := by
      rw [List.map_map]
      apply List.map_congr_left
      intro arg harg
      exact Operand.text_canonical (h (arg.ty, arg.value) (List.mem_map_of_mem harg))
    rw [canonical, text, text, hargs]
  | binary result op width lhs rhs =>
    have hlhs := Value.text_canonical (h (.int width, lhs) (by simp [uses]))
    have hrhs := Value.text_canonical (h (.int width, rhs) (by simp [uses]))
    rw [canonical, text, text, hlhs, hrhs]
  | compare result predicate width lhs rhs =>
    have hlhs := Value.text_canonical (h (.int width, lhs) (by simp [uses]))
    have hrhs := Value.text_canonical (h (.int width, rhs) (by simp [uses]))
    rw [canonical, text, text, hlhs, hrhs]
  | convert result conversion source value target =>
    have hvalue := Value.text_canonical (h (.int source, value) (by simp [uses]))
    rw [canonical, text, text, hvalue]
  | select result condition ty onTrue onFalse =>
    have hcondition := Value.text_canonical (h (.bool, condition) (by simp [uses]))
    have hTrue := Value.text_canonical (h (ty, onTrue) (by simp [uses]))
    have hFalse := Value.text_canonical (h (ty, onFalse) (by simp [uses]))
    rw [canonical, text, text, hcondition, hTrue, hFalse]
  | branch target => rfl
  | branchIf condition onTrue onFalse =>
    have hcondition := Value.text_canonical (h (.bool, condition) (by simp [uses]))
    rw [canonical, text, text, hcondition]
  | ret operand =>
    cases operand with
    | none => rfl
    | some operand =>
      have hoperand := Operand.text_canonical (h (operand.ty, operand.value) (by simp [uses]))
      rw [canonical, Option.map_some, text, text, hoperand]

end Instruction

theorem Block.lines_canonical {block : Block}
    (h : ∀ instruction ∈ block.instructions, instruction.Plain) :
    block.canonical.lines = block.lines := by
  have hinstructions : (block.instructions.map Instruction.canonical).map
      (fun instruction => "  " ++ instruction.text) =
      block.instructions.map fun instruction => "  " ++ instruction.text := by
    rw [List.map_map]
    apply List.map_congr_left
    intro instruction hmem
    rw [Function.comp_apply, Instruction.text_canonical (h instruction hmem)]
  rw [lines, lines, canonical, hinstructions]

namespace Function

theorem bodyLines_canonical {blocks : List Block}
    (h : ∀ block ∈ blocks, block.canonical.lines = block.lines) :
    bodyLines (blocks.map Block.canonical) = bodyLines blocks := by
  induction blocks with
  | nil => rfl
  | cons block rest ih =>
    obtain ⟨hblock, hrest⟩ := List.forall_mem_cons.mp h
    cases rest with
    | nil => exact hblock
    | cons next others =>
      have htail := ih hrest
      rw [List.map_cons] at htail
      have hstep : ∀ first second others,
          bodyLines (first :: second :: others) =
            first.lines ++ "" :: bodyLines (second :: others) := fun _ _ _ => rfl
      rw [List.map_cons, List.map_cons, hstep, hstep, hblock, htail]

variable {function : Function} {groups : List (List Attribute)}

theorem isDeclaration_canonical (function : Function) :
    function.canonical.isDeclaration = function.isDeclaration := by
  rw [isDeclaration, isDeclaration, canonical, List.isEmpty_map]

theorem definitionLines_canonical
    (h : ∀ instruction ∈ function.instructions, instruction.Plain) :
    function.canonical.definitionLines groups = function.definitionLines groups := by
  have hblocks : ∀ block ∈ function.blocks, block.canonical.lines = block.lines := by
    intro block hblock
    apply Block.lines_canonical
    intro instruction hmem
    exact h instruction (List.mem_flatMap.mpr ⟨block, hblock, hmem⟩)
  rw [definitionLines, definitionLines, canonical, bodyLines_canonical hblocks]
  rfl

end Function

namespace Module

variable {module : Module}

theorem filter_canonical (p : Function → Bool) (h : ∀ function, p function.canonical = p function)
    (functions : List Function) :
    (functions.map Function.canonical).filter p = (functions.filter p).map Function.canonical := by
  have hsame : p ∘ Function.canonical = p := funext h
  rw [List.filter_map, hsame]

theorem declarations_canonical (module : Module) :
    module.canonical.declarations = module.declarations.map Function.canonical := by
  have hdeclarations : module.declarations.filter Function.isDeclaration = module.declarations :=
    List.filter_eq_self.mpr fun _ => isDeclaration_of_mem
  have hdefinitions : module.definitions.filter Function.isDeclaration = [] := by
    rw [List.filter_eq_nil_iff]
    intro function hfunction
    rw [isDeclaration_of_mem_definitions hfunction]
    exact Bool.false_ne_true
  have hfunctions : module.canonical.declarations =
      ((module.declarations ++ module.definitions).map Function.canonical).filter
        Function.isDeclaration := rfl
  rw [hfunctions, filter_canonical _ Function.isDeclaration_canonical, List.filter_append,
    hdeclarations, hdefinitions, List.append_nil]

theorem definitions_canonical (module : Module) :
    module.canonical.definitions = module.definitions.map Function.canonical := by
  have hdeclarations : (module.declarations.filter fun function => !function.isDeclaration) = [] := by
    rw [List.filter_eq_nil_iff]
    intro function hfunction
    rw [isDeclaration_of_mem hfunction]
    exact Bool.false_ne_true
  have hdefinitions : (module.definitions.filter fun function => !function.isDeclaration) =
      module.definitions := by
    rw [List.filter_eq_self]
    intro function hfunction
    rw [isDeclaration_of_mem_definitions hfunction]
    rfl
  have hfunctions : module.canonical.definitions =
      ((module.declarations ++ module.definitions).map Function.canonical).filter
        fun function => !function.isDeclaration := rfl
  rw [hfunctions, filter_canonical _ (fun _ => by rw [Function.isDeclaration_canonical]),
    List.filter_append, hdeclarations, hdefinitions, List.nil_append]

theorem attributeGroups_canonical (module : Module) :
    module.canonical.attributeGroups = module.attributeGroups := by
  rw [attributeGroups, attributeGroups, declarations_canonical, definitions_canonical,
    ← List.map_append, List.map_map]
  rfl

theorem lines_canonical (h : module.Plain) : module.canonical.lines = module.lines := by
  have hdeclarations : module.canonical.declarations.flatMap (fun function =>
      paragraph (function.declarationLines module.attributeGroups)) =
      module.declarations.flatMap fun function =>
        paragraph (function.declarationLines module.attributeGroups) := by
    rw [declarations_canonical, List.flatMap_map]
    rfl
  have hdefinitions : module.canonical.definitions.flatMap (fun function =>
      paragraph (function.definitionLines module.attributeGroups)) =
      module.definitions.flatMap fun function =>
        paragraph (function.definitionLines module.attributeGroups) := by
    rw [definitions_canonical, List.flatMap_map]
    apply List.flatMap_congr
    intro function hfunction
    rw [Function.definitionLines_canonical (h function (List.mem_of_mem_filter hfunction))]
  rw [lines, lines, attributeGroups_canonical, hdeclarations, hdefinitions]
  rfl

/-- What the canonical text spells has the same canonical text. -/
theorem text_canonical (h : module.Plain) : module.canonical.text = module.text := by
  rw [text, text, lines_canonical h]

end Module

end QuantumIR
