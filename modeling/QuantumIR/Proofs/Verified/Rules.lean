import Mathlib
import QuantumIR.Verification

/-!
What the rules say about a module as a whole. Verification reports one violation and stops there;
a module that it accepts keeps all rules at once, and a module that keeps all rules is accepted.
-/

namespace QuantumIR

open Verification

namespace Verification

variable {ε α β : Type}

/-- Checks that are done one after the other pass if each of them does. -/
theorem bind_eq_ok {check : Except ε α} {next : α → Except ε β} {b : β} :
    (check >>= next) = .ok b ↔ ∃ a, check = .ok a ∧ next a = .ok b := by
  cases check with
  | error fault =>
    constructor
    · intro h
      cases h
    · rintro ⟨a, h, -⟩
      cases h
  | ok a =>
    constructor
    · intro h
      exact ⟨a, rfl, h⟩
    · rintro ⟨_, h, hnext⟩
      cases h
      exact hnext

theorem forM_eq_ok {check : α → Except ε PUnit} {items : List α} :
    items.forM check = .ok () ↔ ∀ item ∈ items, check item = .ok () := by
  induction items with
  | nil => exact ⟨fun _ item hitem => absurd hitem List.not_mem_nil, fun _ => rfl⟩
  | cons item rest ih =>
    have hcons : (item :: rest).forM check = .ok () ↔
        ∃ a, check item = .ok a ∧ rest.forM check = .ok () := bind_eq_ok
    rw [hcons, List.forall_mem_cons, ← ih]
    exact ⟨fun ⟨_, hfirst, hrest⟩ => ⟨hfirst, hrest⟩, fun ⟨hfirst, hrest⟩ => ⟨(), hfirst, hrest⟩⟩

/-- What checks report that are done one after the other is what one of them reports. -/
theorem bind_eq_error {check : Except ε α} {next : α → Except ε β} {fault : ε}
    (h : (check >>= next) = .error fault) :
    check = .error fault ∨ ∃ a, check = .ok a ∧ next a = .error fault := by
  cases check with
  | error found =>
    cases h
    exact Or.inl rfl
  | ok a => exact Or.inr ⟨a, rfl, h⟩

theorem forM_eq_error {check : α → Except ε Unit} {items : List α} {fault : ε}
    (h : items.forM check = .error fault) : ∃ item ∈ items, check item = .error fault := by
  induction items with
  | nil => cases h
  | cons item rest ih =>
    rcases bind_eq_error h with hitem | ⟨_, -, hrest⟩
    · exact ⟨item, List.mem_cons_self, hitem⟩
    · obtain ⟨other, hother, hfault⟩ := ih hrest
      exact ⟨other, List.mem_cons_of_mem item hother, hfault⟩

/-- What is done for each item succeeds with the results that belong to the items one by one. -/
theorem mapM_eq_ok {f : α → Except ε β} {items : List α} {results : List β} :
    items.mapM f = .ok results ↔ List.Forall₂ (fun a b => f a = .ok b) items results := by
  induction items generalizing results with
  | nil =>
    rw [List.mapM_nil, List.forall₂_nil_left_iff]
    exact ⟨fun h => (Except.ok.inj h).symm, fun h => congrArg Except.ok h.symm⟩
  | cons item rest ih =>
    rw [List.mapM_cons, bind_eq_ok]
    constructor
    · rintro ⟨first, hfirst, h⟩
      obtain ⟨others, hothers, h⟩ := bind_eq_ok.mp h
      cases h
      exact .cons hfirst (ih.mp hothers)
    · intro h
      cases h with
      | cons hfirst hothers => exact ⟨_, hfirst, bind_eq_ok.mpr ⟨_, ih.mpr hothers, rfl⟩⟩

/-- Results that are computed one after the other stand at the places of what they come from. -/
theorem getElem?_of_mapM {f : α → Except ε β} {items : List α} {results : List β}
    (h : items.mapM f = .ok results) {place : Nat} {result : β}
    (hresult : results[place]? = some result) :
    ∃ item, items[place]? = some item ∧ f item = .ok result := by
  obtain ⟨hlength, hget⟩ := List.forall₂_iff_get.mp (mapM_eq_ok.mp h)
  obtain ⟨hplace, rfl⟩ := List.getElem?_eq_some_iff.mp hresult
  have hplace' : place < items.length := by
    rw [hlength]
    exact hplace
  exact ⟨items[place], List.getElem?_eq_getElem hplace', hget place hplace' hplace⟩

theorem mem_of_mapM {f : α → Except ε β} {items : List α} {results : List β}
    (h : items.mapM f = .ok results) {result : β} (hresult : result ∈ results) :
    ∃ item ∈ items, f item = .ok result := by
  obtain ⟨place, hplace⟩ := List.mem_iff_getElem?.mp hresult
  obtain ⟨item, hitem, hf⟩ := getElem?_of_mapM h hplace
  exact ⟨item, List.mem_of_getElem? hitem, hf⟩

theorem report_eq_ok {violation : Option Violation} :
    report violation = .ok () ↔ violation = none := by
  cases violation with
  | none => exact ⟨fun _ => rfl, fun _ => rfl⟩
  | some violation =>
    constructor
    · intro h
      cases h
    · intro h
      cases h

theorem firstRepeat?_eq_none [DecidableEq α] {seen items : List α} :
    firstRepeat? seen items = none ↔ items.Nodup ∧ ∀ item ∈ items, item ∉ seen := by
  induction items generalizing seen with
  | nil => simp [firstRepeat?]
  | cons item rest ih =>
    by_cases hseen : item ∈ seen
    · simp [firstRepeat?, hseen]
    · simp only [firstRepeat?, if_neg hseen, ih, List.nodup_cons, List.forall_mem_cons]
      constructor
      · rintro ⟨hrest, hnew⟩
        refine ⟨⟨?_, hrest⟩, hseen, ?_⟩
        · intro hmem
          exact hnew item hmem List.mem_cons_self
        · intro other hother hmem
          exact hnew other hother (List.mem_cons_of_mem item hmem)
      · rintro ⟨⟨hitem, hrest⟩, -, hnew⟩
        refine ⟨hrest, ?_⟩
        intro other hother hmem
        rcases List.mem_cons.mp hmem with rfl | hmem
        · exact hitem hother
        · exact hnew other hother hmem

theorem report_firstRepeat? [DecidableEq α] {items : List α} {violation : α → Violation} :
    report ((firstRepeat? [] items).map violation) = .ok () ↔ items.Nodup := by
  rw [report_eq_ok, Option.map_eq_none_iff, firstRepeat?_eq_none]
  simp

end Verification

/-- Integers of a type have 1 to 64 bits. -/
def Ty.Supported (ty : Ty) : Prop :=
  ∀ width, ty = .int width → 1 ≤ width ∧ width ≤ 64

/-- A block ends with its only terminator, which goes on to blocks with given labels. -/
def Block.Terminates (labels : List String) (block : Block) : Prop :=
  ∃ body last, block.instructions = body ++ [last] ∧ last.isTerminator ∧
    (∀ instruction ∈ body, instruction.isTerminator = false) ∧
    ∀ target ∈ last.successors, target ∈ labels

/-- The labels to which a block goes on are those of its function. -/
theorem Block.Terminates.mem_labels {labels : List String} {block : Block}
    (h : block.Terminates labels) {instruction : Instruction}
    (hmem : instruction ∈ block.instructions) {target : String}
    (htarget : target ∈ instruction.successors) : target ∈ labels := by
  obtain ⟨body, last, heq, -, hbody, hlast⟩ := h
  rw [heq] at hmem
  rcases List.mem_append.mp hmem with hmem | hmem
  · have hfree := hbody instruction hmem
    cases instruction with
    | branch | branchIf => cases hfree
    | _ => exact absurd htarget List.not_mem_nil
  · cases List.mem_singleton.mp hmem
    exact hlast target htarget

/-- A call calls a function of a module with as many arguments as it has parameters. -/
def Instruction.CallsIn (module : Module) : Instruction → Prop
  | call _ _ callee args =>
    ∃ target, module.function? callee = some target ∧ target.params.length = args.length
  | _ => True

/-- What the rules ask of a function with a body. -/
structure Function.WellFormed (module : Module) (function : Function) : Prop where
  labels : (function.blocks.map Block.label).Nodup
  blocks : ∀ block ∈ function.blocks, block.Terminates (function.blocks.map Block.label)
  assignments : function.boundNames.Nodup
  calls : ∀ instruction ∈ function.instructions, instruction.CallsIn module

/-- The type by which an argument of a call counts as a qubit or a result: the one that the
catalog gives it, or else the one that is written with it. -/
def Operand.countedTy (callee : String) (place : Nat) (arg : Operand) : Ty :=
  ((((Intrinsic.ofName? callee).map fun i => i.signature.params).getD [])[place]?).getD arg.ty

/-- The static indices among the arguments of a call are those of qubits and results that there
are. -/
def Instruction.IndicesBelow (count : Register → Nat) : Instruction → Prop
  | call _ _ callee args => ∀ (place : Nat) (arg : Operand), args[place]? = some arg →
    ∀ register, register? (arg.countedTy callee place) = some register →
      ∀ index, arg.value.index? = some index → index < count register
  | _ => True

/-- The numbers of qubits and results. -/
def registerCounts (qubits results : Nat) : Register → Nat
  | .qubit => qubits
  | .result => results

/-- A module that keeps the rules about names, blocks and calls, with its entry point and the
numbers of qubits and results that the entry point gives. -/
structure Module.Structured (module : Module) (entry : Function) (qubits results : Nat) :
    Prop where
  functions : (module.functions.map Function.name).Nodup
  entryPoints : module.entryPoints = [entry]
  body : entry.isDeclaration = false
  qubitCount : entry.qubitCount? = some qubits
  resultCount : entry.resultCount? = some results
  definitions : ∀ function ∈ module.definitions, function.WellFormed module

/-- A module that keeps all rules. -/
structure Module.Verified (module : Module) (entry : Function) (qubits results : Nat) : Prop
    extends module.Structured entry qubits results where
  widths : ∀ function ∈ module.functions, ∀ ty ∈ function.types, ty.Supported
  indices : ∀ instruction ∈ entry.instructions,
    instruction.IndicesBelow (registerCounts qubits results)

namespace Verification

variable {module : Module} {function entry : Function}

theorem checkUniqueFunctions_eq_ok :
    checkUniqueFunctions module = .ok () ↔ (module.functions.map Function.name).Nodup :=
  report_firstRepeat?

theorem checkEntryPoint_eq_ok : checkEntryPoint module = .ok entry ↔
    module.entryPoints = [entry] ∧ entry.isDeclaration = false := by
  rw [checkEntryPoint]
  rcases module.entryPoints with _ | ⟨first, _ | ⟨second, others⟩⟩
  · simp
  · by_cases hbody : first.isDeclaration
    · simp only [hbody, if_true, List.cons.injEq, and_true]
      constructor
      · intro h
        cases h
      · rintro ⟨rfl, hentry⟩
        rw [hbody] at hentry
        cases hentry
    · simp only [hbody, List.cons.injEq, and_true]
      constructor
      · intro h
        cases h
        exact ⟨rfl, by simpa using hbody⟩
      · rintro ⟨rfl, -⟩
        rfl
  · simp

theorem count?_nil : Text.count? [] = none := rfl

theorem checkCount_eq_ok {keys : List String} {count : Nat} :
    checkCount entry keys = .ok count ↔ entry.count? keys = some count := by
  rw [checkCount, Function.count?]
  cases entry.firstAttribute? keys with
  | none => simp
  | some attr =>
    cases hvalue : attr.value? with
    | none => simp [hvalue, count?_nil]
    | some value =>
      cases hcount : Text.count? value.toList with
      | none => simp [hvalue, hcount]
      | some found => simp [hvalue, hcount]

theorem unsupportedWidth?_eq_none {ty : Ty} : unsupportedWidth? ty = none ↔ ty.Supported := by
  cases ty with
  | int width =>
    have hwidth : (Ty.int width).Supported ↔ 1 ≤ width ∧ width ≤ 64 :=
      ⟨fun h => h width rfl, fun h bits hbits => by cases hbits; exact h⟩
    rw [hwidth, unsupportedWidth?, Ty.intWidth?, Option.filter_eq_none_iff]
    simp only [Option.some.injEq, forall_eq', Bool.or_eq_true, decide_eq_true_eq, not_or,
      UInt32.not_lt]
    have hpos : ¬width = 0 ↔ 1 ≤ width := by
      rw [← UInt32.toNat_inj, UInt32.le_iff_toNat_le]
      simp only [UInt32.reduceToNat]
      omega
    rw [hpos]
  | _ => exact ⟨fun _ width h => Ty.noConfusion h, fun _ => rfl⟩

theorem checkWidths_eq_ok :
    checkWidths function = .ok () ↔ ∀ ty ∈ function.types, ty.Supported := by
  rw [checkWidths, report_eq_ok, Option.map_eq_none_iff, List.findSome?_eq_none_iff]
  simp only [unsupportedWidth?_eq_none]

theorem block?_isNone {label : String} :
    (function.block? label).isNone ↔ label ∉ function.blocks.map Block.label := by
  simp [Function.block?]

theorem checkBlock_eq_ok {block : Block} : checkBlock function block = .ok () ↔
    block.Terminates (function.blocks.map Block.label) := by
  rw [checkBlock, Block.terminator?]
  rcases List.eq_nil_or_concat block.instructions with hnil | ⟨body, last, hlast⟩
  · rw [hnil]
    constructor
    · intro h
      cases h
    · rintro ⟨body, last, heq, -⟩
      rw [hnil] at heq
      exact absurd heq.symm (by simp)
  · rw [List.concat_eq_append] at hlast
    have hterminates : block.Terminates (function.blocks.map Block.label) ↔ last.isTerminator ∧
        (∀ instruction ∈ body, instruction.isTerminator = false) ∧
        ∀ target ∈ last.successors, target ∈ function.blocks.map Block.label := by
      constructor
      · rintro ⟨body', last', heq, h⟩
        rw [hlast] at heq
        obtain ⟨rfl, hsingle⟩ := List.append_inj' heq rfl
        cases hsingle
        exact h
      · exact fun h => ⟨body, last, hlast, h⟩
    rw [hterminates, hlast, List.getLast?_concat, List.dropLast_concat]
    by_cases hterminator : last.isTerminator
    · simp only [Option.filter_some, hterminator, if_true, true_and]
      by_cases hbody : body.any Instruction.isTerminator
      · rw [if_pos hbody]
        rw [List.any_eq_true] at hbody
        obtain ⟨instruction, hmem, hinstruction⟩ := hbody
        constructor
        · intro h
          cases h
        · rintro ⟨h, -⟩
          rw [h instruction hmem] at hinstruction
          cases hinstruction
      · rw [if_neg hbody, report_eq_ok, Option.map_eq_none_iff, List.find?_eq_none]
        simp only [block?_isNone, not_not]
        have hfree : ∀ instruction ∈ body, instruction.isTerminator = false := by
          simpa using hbody
        exact ⟨fun h => ⟨hfree, h⟩, fun h => h.2⟩
    · simp only [Option.filter_some, hterminator]
      simp

theorem checkCall_eq_ok {instruction : Instruction} :
    checkCall module function instruction = .ok () ↔ instruction.CallsIn module := by
  cases instruction with
  | call result ret callee args =>
    simp only [checkCall, Instruction.CallsIn]
    cases module.function? callee with
    | none => simp
    | some target =>
      by_cases hlength : target.params.length = args.length
      · simp [hlength]
      · simp [hlength]
  | _ => exact ⟨fun _ => trivial, fun _ => rfl⟩

/-- Two checks pass if each of them does. -/
theorem andThen_eq_ok {check next : Except Violation Unit} :
    (do check; next) = .ok () ↔ check = .ok () ∧ next = .ok () := by
  rw [bind_eq_ok]
  exact ⟨fun ⟨_, hcheck, hnext⟩ => ⟨hcheck, hnext⟩, fun ⟨hcheck, hnext⟩ => ⟨(), hcheck, hnext⟩⟩

theorem checkFunction_eq_ok : checkFunction module function = .ok () ↔
    (∀ ty ∈ function.types, ty.Supported) ∧
      (function.isDeclaration = false → function.WellFormed module) := by
  rw [checkFunction, andThen_eq_ok, checkWidths_eq_ok]
  apply and_congr_right
  intro _
  cases hbody : function.isDeclaration with
  | true => exact ⟨fun _ h => Bool.noConfusion h, fun _ => rfl⟩
  | false =>
    have hchecks : (do
        checkLabels function
        function.blocks.forM (checkBlock function)
        checkAssignments function
        function.instructions.forM (checkCall module function)) = .ok () ↔
          function.WellFormed module := by
      rw [andThen_eq_ok, andThen_eq_ok, andThen_eq_ok, forM_eq_ok, forM_eq_ok, checkLabels,
        checkAssignments, report_firstRepeat?, report_firstRepeat?]
      simp only [checkBlock_eq_ok, checkCall_eq_ok]
      constructor
      · rintro ⟨hlabels, hblocks, hassignments, hcalls⟩
        exact ⟨hlabels, hblocks, hassignments, hcalls⟩
      · rintro ⟨hlabels, hblocks, hassignments, hcalls⟩
        exact ⟨hlabels, hblocks, hassignments, hcalls⟩
    exact ⟨fun h _ => hchecks.mp h, fun h => hchecks.mpr (h rfl)⟩

theorem checkIndex_eq_ok {qubits results : Nat} {catalogTy : Option Ty} {arg : Operand} :
    checkIndex entry qubits results catalogTy arg = .ok () ↔
      ∀ register, register? (catalogTy.getD arg.ty) = some register →
        ∀ index, arg.value.index? = some index → index < registerCounts qubits results register := by
  rw [checkIndex]
  cases hindex : arg.value.index? with
  | none => simp
  | some index =>
    cases hregister : register? (catalogTy.getD arg.ty) with
    | none => simp
    | some register =>
      simp only [Option.some.injEq, forall_eq']
      cases register with
      | qubit => by_cases hlt : index < qubits <;> simp [registerCounts, hlt]
      | result => by_cases hlt : index < results <;> simp [registerCounts, hlt]

theorem checkIndices_eq_ok {qubits results : Nat} {instruction : Instruction} :
    checkIndices entry qubits results instruction = .ok () ↔
      instruction.IndicesBelow (registerCounts qubits results) := by
  cases instruction with
  | call result ret callee args =>
    simp only [checkIndices, Instruction.IndicesBelow, forM_eq_ok, checkIndex_eq_ok]
    constructor
    · intro h place arg harg
      exact h (arg, place) (List.mk_mem_zipIdx_iff_getElem?.mpr harg)
    · rintro h ⟨arg, place⟩ harg
      exact h place arg (List.mk_mem_zipIdx_iff_getElem?.mp harg)
  | _ => exact ⟨fun _ => trivial, fun _ => rfl⟩

theorem rule_of_checkWidths {violation : Violation}
    (h : checkWidths function = .error violation) : violation.rule = .integerWidth := by
  rw [checkWidths] at h
  cases hwidth : function.types.findSome? unsupportedWidth? with
  | none =>
    rw [hwidth] at h
    cases h
  | some width =>
    rw [hwidth] at h
    cases h
    rfl

/-- In a well-formed function only the width of a type is reported. -/
theorem rule_of_checkFunction {violation : Violation}
    (hbody : function.isDeclaration = false → function.WellFormed module)
    (h : checkFunction module function = .error violation) : violation.rule = .integerWidth := by
  rcases bind_eq_error h with hwidths | ⟨_, hwidths, -⟩
  · exact rule_of_checkWidths hwidths
  · rw [checkFunction_eq_ok.mpr ⟨checkWidths_eq_ok.mp hwidths, hbody⟩] at h
    cases h

theorem rule_of_checkIndices {qubits results : Nat} {instruction : Instruction}
    {violation : Violation} (h : checkIndices entry qubits results instruction = .error violation) :
    violation.rule = .operandRange := by
  cases instruction with
  | call result ret callee args =>
    obtain ⟨⟨arg, place⟩, -, hindex⟩ := forM_eq_error h
    dsimp only [checkIndex] at hindex
    split at hindex
    · next index register _ _ =>
      cases register
      all_goals
        dsimp only at hindex
        split at hindex
        · cases hindex
        · cases hindex
          rfl
    · cases hindex
  | _ => cases h

end Verification

/-- In a module that keeps the rules about names, blocks and calls, at most the width of a type
or a static index is reported. -/
theorem Module.Structured.rule_of_verify {module : Module} {entry : Function}
    {qubits results : Nat} (h : module.Structured entry qubits results) {violation : Violation}
    (hverify : module.verify = .error violation) :
    violation.rule = .integerWidth ∨ violation.rule = .operandRange := by
  rcases bind_eq_error hverify with hfault | ⟨_, -, hverify⟩
  · rw [checkUniqueFunctions_eq_ok.mpr h.functions] at hfault
    cases hfault
  rcases bind_eq_error hverify with hfault | ⟨found, hfound, hverify⟩
  · rw [checkEntryPoint_eq_ok.mpr ⟨h.entryPoints, h.body⟩] at hfault
    cases hfault
  cases hfound.symm.trans (checkEntryPoint_eq_ok.mpr ⟨h.entryPoints, h.body⟩)
  rcases bind_eq_error hverify with hfault | ⟨_, -, hverify⟩
  · rw [checkCount_eq_ok.mpr h.qubitCount] at hfault
    cases hfault
  rcases bind_eq_error hverify with hfault | ⟨_, -, hverify⟩
  · rw [checkCount_eq_ok.mpr h.resultCount] at hfault
    cases hfault
  rcases bind_eq_error hverify with hfault | ⟨_, -, hfault⟩
  · obtain ⟨function, hfunction, hfault⟩ := forM_eq_error hfault
    refine Or.inl (rule_of_checkFunction ?_ hfault)
    intro hdefinition
    exact h.definitions function (List.mem_filter.mpr ⟨hfunction, by simpa using hdefinition⟩)
  · obtain ⟨instruction, -, hfault⟩ := forM_eq_error hfault
    exact Or.inr (rule_of_checkIndices hfault)

/-- Exactly the modules that keep all rules are accepted. -/
theorem Module.verify_eq_ok_iff {module : Module} :
    module.verify = .ok () ↔ ∃ entry qubits results, module.Verified entry qubits results := by
  have hchecks : ∀ (entry : Function) (qubits results : Nat), ((do
      module.functions.forM (checkFunction module)
      entry.instructions.forM (checkIndices entry qubits results)) = .ok ()) ↔
        (∀ function ∈ module.functions, (∀ ty ∈ function.types, ty.Supported) ∧
          (function.isDeclaration = false → function.WellFormed module)) ∧
        ∀ instruction ∈ entry.instructions,
          instruction.IndicesBelow (registerCounts qubits results) := by
    intro entry qubits results
    rw [andThen_eq_ok, forM_eq_ok, forM_eq_ok]
    simp only [checkFunction_eq_ok, checkIndices_eq_ok]
  rw [verify, andThen_eq_ok, checkUniqueFunctions_eq_ok, bind_eq_ok]
  simp only [@bind_eq_ok _ _ _ (checkCount _ _), checkEntryPoint_eq_ok, checkCount_eq_ok, hchecks]
  constructor
  · rintro ⟨hnames, entry, ⟨hpoints, hbody⟩, qubits, hqubits, results, hresults, hfunctions, hin⟩
    refine ⟨entry, qubits, results, ⟨hnames, hpoints, hbody, hqubits, hresults, ?_⟩, ?_, hin⟩
    · intro function hfunction
      obtain ⟨hmem, hdefinition⟩ := List.mem_filter.mp hfunction
      exact (hfunctions function hmem).2 (by simpa using hdefinition)
    · exact fun function hfunction => (hfunctions function hfunction).1
  · rintro ⟨entry, qubits, results, h⟩
    refine ⟨h.functions, entry, ⟨h.entryPoints, h.body⟩, qubits, h.qubitCount, results,
      h.resultCount, ?_, h.indices⟩
    intro function hmem
    refine ⟨h.widths function hmem, ?_⟩
    intro hdefinition
    exact h.definitions function (List.mem_filter.mpr ⟨hmem, by simpa using hdefinition⟩)

/-- Where keys are distinct, an item is found by its key wherever it stands. -/
theorem Verification.find?_eq_some_iff_of_nodup {α : Type} {items : List α} {key : α → String}
    (hkeys : (items.map key).Nodup) {name : String} {item : α} :
    (items.find? fun item => key item = name) = some item ↔ item ∈ items ∧ key item = name := by
  constructor
  · intro h
    exact ⟨List.mem_of_find?_eq_some h, by simpa using List.find?_some h⟩
  · rintro ⟨hmem, rfl⟩
    cases hfind : items.find? fun other => key other = key item with
    | none => exact absurd (List.find?_eq_none.mp hfind item hmem) (by simp)
    | some found =>
      have hkey : key found = key item := by simpa using List.find?_some hfind
      rw [List.inj_on_of_nodup_map hkeys (List.mem_of_find?_eq_some hfind) hmem hkey]

theorem Module.function?_eq_some_iff {module : Module}
    (hnames : (module.functions.map Function.name).Nodup) {name : String} {function : Function} :
    module.function? name = some function ↔ function ∈ module.functions ∧ function.name = name :=
  find?_eq_some_iff_of_nodup hnames

end QuantumIR
