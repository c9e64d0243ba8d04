import QuantumIR.Proofs.Building.Finished

/-!
Where builder and verification agree about widths and static indices. The helpers of the catalog
and the instructions with a width check what verification checks. A call with types of its own
and a choice between two values check less; their types have to be those that the rules expect.
-/

namespace QuantumIR

open Builder Verification

namespace Intrinsic

/-- Every function of the catalog is found by its name. -/
theorem ofName?_name (intrinsic : Intrinsic) : ofName? intrinsic.name = some intrinsic := by
  cases intrinsic with
  | controlled gate | single gate => cases gate <;> rfl
  | rotate axis | rotatePair axis => cases axis <;> rfl
  | record kind => cases kind <;> rfl
  | resultOf value => cases value <;> rfl
  | _ => rfl

end Intrinsic

/-- Types of the catalog have widths that are computed with. -/
theorem Intrinsic.supported (intrinsic : Intrinsic) : intrinsic.signature.ret.Supported ∧
    ∀ ty ∈ intrinsic.signature.params, ty.Supported := by
  have hint : ∀ width : UInt32, 1 ≤ width ∧ width ≤ 64 → (Ty.int width).Supported :=
    fun width h bits hbits => Ty.int.inj hbits ▸ h
  have hother : ∀ ty : Ty, ty.intWidth? = none → ty.Supported :=
    fun ty h width hwidth => by rw [hwidth] at h; cases h
  have hbool : Ty.bool.Supported := hint 1 (by decide)
  have hi64 : Ty.i64.Supported := hint 64 (by decide)
  have hlabel : Ty.label.Supported := hother _ rfl
  have hdouble : Ty.double.Supported := hother _ rfl
  have hqubit : Ty.qubit.Supported := hother _ rfl
  have hresult : Ty.result.Supported := hother _ rfl
  have hvoid : Ty.void.Supported := hother _ rfl
  cases intrinsic with
  | record kind => cases kind <;> simp [signature, hbool, hi64, hlabel, hdouble, hresult, hvoid]
  | _ => simp [signature, hbool, hlabel, hdouble, hqubit, hresult, hvoid]

namespace Instruction

/-- What is written out has widths that are computed with, and what counts as a static qubit or
result is of that type. -/
def Typed : Instruction → Prop
  | call _ ty callee args => ty.Supported ∧
    ∀ (place : Nat) (arg : Operand), args[place]? = some arg →
      arg.ty.Supported ∧ register? (arg.countedTy callee place) = register? arg.ty
  | select _ _ ty _ _ => ty.Supported
  | _ => True

end Instruction

def Signature.Supported (signature : Signature) : Prop :=
  signature.ret.Supported ∧ ∀ ty ∈ signature.params, ty.Supported

/-- What agrees with the rules about widths and static indices. -/
def Builder.Additions.typed : Additions where
  instruction := Instruction.Typed
  declaration _ signature := signature.Supported
  text _ := True

/-- Steps that write no types of their own, or types that agree with the rules about widths and
static indices. -/
def BuildStep.Typed : BuildStep → Prop
  | .call name ty args => (Instruction.call none ty name args).Typed
  | .declare _ signature => signature.Supported
  | .select _ ty _ _ => ty.Supported
  | _ => True

namespace Builder

variable {builder : Builder} {instruction : Instruction}

/-- A call to the catalog has the types of the catalog. -/
theorem callsWithin_typed (callee : Intrinsic) (args : List Value) :
    BuildStep.CallsWithin .typed callee args := by
  obtain ⟨hret, hparams⟩ := callee.supported
  refine ⟨?_, hret, hparams⟩
  intro _ _
  refine ⟨hret, ?_⟩
  intro place arg harg
  rw [Building.typedArgs, List.getElem?_map, Option.map_eq_some_iff] at harg
  obtain ⟨⟨ty, value⟩, hpair, rfl⟩ := harg
  have hty : callee.signature.params[place]? = some ty :=
    (List.getElem?_zip_eq_some.mp hpair).1
  refine ⟨hparams ty (List.mem_of_getElem? hty), ?_⟩
  rw [Operand.countedTy, Intrinsic.ofName?_name]
  simp [hty]

theorem supported_of_args {args : List Operand}
    (h : ∀ (place : Nat) (arg : Operand), args[place]? = some arg → arg.ty.Supported) :
    ∀ arg ∈ args, arg.ty.Supported := by
  intro arg harg
  obtain ⟨place, hplace⟩ := List.mem_iff_getElem?.mp harg
  exact h place arg hplace

theorem within_typed {step : BuildStep} (h : step.Typed) : step.Within .typed := by
  cases step with
  | perform callee args | evaluate callee args | intrinsic callee args =>
    exact callsWithin_typed callee args
  | rotatePair callee theta a b => exact fun _ _ => callsWithin_typed callee _
  | record kind value label => exact ⟨fun _ _ => trivial, fun _ _ => callsWithin_typed _ _⟩
  | select condition ty onTrue onFalse => exact fun _ => h
  | call name ty args =>
    refine ⟨fun _ => h, h.1, ?_⟩
    intro argTy hmem
    obtain ⟨arg, harg, rfl⟩ := List.mem_map.mp hmem
    exact supported_of_args (fun place arg hplace => (h.2 place arg hplace).1) arg harg
  | declare name signature => exact h
  | ifElse condition onTrue onFalse => exact ⟨fun _ _ => trivial, fun _ => trivial⟩
  | ifResult result onOne onZero =>
    exact ⟨callsWithin_typed _ _, fun _ => ⟨fun _ _ => trivial, fun _ => trivial⟩⟩
  | binary op width lhs rhs => exact fun _ => trivial
  | compare predicate width lhs rhs => exact fun _ => trivial
  | convert conversion source value target => exact fun _ => trivial
  | _ => trivial

theorem int_supported {width : UInt32} (h : 1 ≤ width ∧ width ≤ 64) :
    (Ty.int width).Supported :=
  fun _ hbits => Ty.int.inj hbits ▸ h

/-- The types of an instruction that a builder made sure of. -/
theorem supported_types (hstands : builder.Stands instruction) (h : instruction.Typed) :
    ∀ ty ∈ instruction.types, ty.Supported := by
  cases instruction with
  | call result ret callee args =>
    have hargs := supported_of_args fun place arg hplace => (h.2 place arg hplace).1
    intro ty hty
    simp only [Instruction.types, Instruction.operands, List.filterMap_map, Function.comp_def,
      List.mem_append, List.mem_singleton, List.mem_filterMap, Option.some.injEq] at hty
    rcases hty with rfl | ⟨arg, harg, rfl⟩
    · exact h.1
    · exact hargs arg harg
  | binary result op width lhs rhs | compare result predicate width lhs rhs =>
    simpa [Instruction.types, Instruction.operands] using int_supported hstands
  | convert result conversion source value target =>
    have hsource := int_supported hstands.1
    have htarget := int_supported hstands.2.1
    simp [Instruction.types, Instruction.operands, hsource, htarget]
  | select result condition ty onTrue onFalse =>
    have hty : ty.Supported := h
    simp [Instruction.types, Instruction.operands, hty]
  | branch target => simp [Instruction.types, Instruction.operands]
  | branchIf condition onTrue onFalse => simp [Instruction.types, Instruction.operands]
  | ret operand =>
    have hnone : operand = none := hstands
    simp [Instruction.types, Instruction.operands, hnone]

/-- The index of a qubit or a result that a builder made sure of. -/
theorem index_lt_of_checkOperand {operand : Operand}
    (h : builder.checkOperand operand = .ok ()) {register : Register}
    (hregister : register? operand.ty = some register) {index : Nat}
    (hindex : operand.value.index? = some index) :
    index < registerCounts builder.qubitCount builder.resultCount register := by
  have hlimit : ∀ register, builder.checkIndex register index = .ok () →
      index < builder.limit register := by
    intro register hcheck
    rw [checkIndex] at hcheck
    split at hcheck
    · next hlt => exact hlt
    · cases hcheck
  rw [checkOperand, hindex] at h
  dsimp only at h
  rw [register?] at hregister
  split at h
  · next hqubit =>
    rw [if_pos hqubit] at hregister
    cases hregister
    exact hlimit .qubit h
  · next hqubit =>
    rw [if_neg hqubit] at hregister
    split at h
    · next hresult =>
      rw [if_pos hresult] at hregister
      cases hregister
      exact hlimit .result h
    · next hresult =>
      rw [if_neg hresult] at hregister
      cases hregister

theorem index?_renameValue (names : Bindings String String) (value : Value) :
    (renameValue names value).index? = value.index? := by
  cases value <;> rfl

theorem indicesBelow_renumbered (hstands : builder.Stands instruction) (h : instruction.Typed)
    (names : Bindings String String) : (renumbered names instruction).IndicesBelow
      (registerCounts builder.qubitCount builder.resultCount) := by
  cases instruction with
  | call result ret callee args =>
    intro place arg harg register hregister index hindex
    rw [List.getElem?_map, Option.map_eq_some_iff] at harg
    obtain ⟨old, hold, rfl⟩ := harg
    rw [index?_renameValue] at hindex
    have hcounted : register? (old.countedTy callee place) = some register := hregister
    rw [(h.2 place old hold).2] at hcounted
    exact index_lt_of_checkOperand (hstands.2.1 old (List.mem_of_getElem? hold)) hcounted hindex
  | _ => trivial

theorem types_of_declared {function : Function} (h : builder.Sound .typed)
    (hfunction : function ∈ builder.declarations) : ∀ ty ∈ function.types, ty.Supported := by
  obtain ⟨name, signature, rfl, -, hret, hparams⟩ := h.declarations function hfunction
  have hinstructions : (declarationOf name signature).instructions = [] := rfl
  intro ty hty
  rw [Function.types, declarationOf_params, hinstructions, List.flatMap_nil, List.append_nil] at hty
  rcases List.mem_cons.mp hty with rfl | hty
  · exact hret
  · exact hparams ty hty

theorem types_of_entry (h : builder.Sound .typed) :
    ∀ ty ∈ builder.entry.types, ty.Supported := by
  intro ty hty
  rw [Function.types, Function.instructions, entry, instructions_renumber] at hty
  rcases List.mem_cons.mp hty with rfl | hty
  · intro width hwidth
    cases hwidth
  · obtain ⟨instruction, hmem, hty⟩ := List.mem_flatMap.mp hty
    obtain ⟨old, hold, rfl⟩ := List.mem_map.mp hmem
    rw [renumbered, Instruction.types_mapValues, Instruction.types_mapResult] at hty
    exact supported_types (h.stands old hold) (h.allowed old hold) ty hty

/-- A finished module of typed instructions keeps all rules. -/
theorem verified_finished (h : builder.Sound .typed)
    (hterminated : ∀ block ∈ builder.blocks, block.terminator?.isSome)
    (hqubits : builder.qubitCount < UInt64.size) (hresults : builder.resultCount < UInt64.size) :
    builder.finished.Verified builder.entry builder.qubitCount builder.resultCount where
  toStructured := structured_finished h hterminated hqubits hresults
  widths := by
    intro function hfunction
    rcases List.mem_cons.mp hfunction with rfl | hdeclared
    · exact types_of_entry h
    · exact types_of_declared h hdeclared
  indices := by
    rw [Function.instructions, entry, instructions_renumber]
    intro instruction hmem
    obtain ⟨old, hold, rfl⟩ := List.mem_map.mp hmem
    exact indicesBelow_renumbered (h.stands old hold) (h.allowed old hold) _

/-- What is built by typed changes is accepted. -/
theorem verify_of_later {name : String} {qubits results : Int64} {first last : Builder}
    {module : Module} (hcreate : create name qubits.toInt results.toInt = .ok first)
    (hlater : Later .typed first last) (hfinish : last.finish = .ok module) :
    module.verify = .ok () := by
  obtain ⟨hterminated, rfl⟩ := finish_eq_ok hfinish
  obtain ⟨hqubits, hresults⟩ := counts_create hcreate
  have hextends := hlater.extends
  have hverified := verified_finished ((sound_create hcreate).run hlater) hterminated
    (hextends.qubitCount ▸ hqubits) (hextends.resultCount ▸ hresults)
  exact Module.verify_eq_ok_iff.mpr ⟨_, _, _, hverified⟩

/-- What is built by typed steps is accepted. -/
theorem verify_finished {name : String} {qubits results : Int64} {first last : Builder}
    {module : Module} (hcreate : create name qubits.toInt results.toInt = .ok first)
    (hsession : Session BuildStep.Typed first last) (hfinish : last.finish = .ok module) :
    module.verify = .ok () := by
  obtain ⟨hterminated, rfl⟩ := finish_eq_ok hfinish
  have hwithin : ∀ step : BuildStep, step.Typed → step.Within .typed := fun _ => within_typed
  have hextends := (hsession.later hwithin).extends
  obtain ⟨hqubits, hresults⟩ := counts_create hcreate
  have hverified := verified_finished (sound_of_session hcreate hsession hwithin) hterminated
    (hextends.qubitCount ▸ hqubits) (hextends.resultCount ▸ hresults)
  exact Module.verify_eq_ok_iff.mpr ⟨_, _, _, hverified⟩

/-- A choice between integers of 8 bits. -/
def byteSelect : BuildStep := .select (.int 1) (.int 8) (.int 0) (.int 1)

theorem verify_byteSelect :
    create "small" (1 : Int64).toInt (1 : Int64).toInt = .ok small ∧
    byteSelect.Typed ∧ ((small.after byteSelect.run).after BuildStep.ret.run).finished.verify =
      .ok () := by
  have hcreate : create "small" (1 : Int64).toInt (1 : Int64).toInt = .ok small := by rfl
  have htyped : byteSelect.Typed := int_supported (by decide)
  have hsession : Session BuildStep.Typed small
      ((small.after byteSelect.run).after BuildStep.ret.run) :=
    (Session.step small byteSelect rfl htyped).trans (.step _ .ret rfl trivial)
  exact ⟨hcreate, htyped,
    verify_finished hcreate hsession (finish_of_terminated (by decide +kernel))⟩

/-- A choice between integers of 65 bits, which no instruction with a width check has. -/
def wideSelect : BuildStep := .select (.int 1) (.int 65) (.int 0) (.int 1)

/-- A builder lets a choice between integers pass that verification reports. -/
theorem verify_wideSelect :
    create "small" (1 : Int64).toInt (1 : Int64).toInt = .ok small ∧
    Session BuildStep.Any small ((BuildStep.runAll [wideSelect, .ret]).run small).2 ∧
    ((BuildStep.runAll [wideSelect, .ret]).run small).2.finish =
      .ok ((BuildStep.runAll [wideSelect, .ret]).run small).2.finished ∧
    ((BuildStep.runAll [wideSelect, .ret]).run small).2.finished.verify =
      .error (.width "main" 65) :=
  ⟨by rfl, BuildStep.session_runAll _ _, finish_of_terminated (by decide +kernel),
    by decide +kernel⟩

end Builder

end QuantumIR
