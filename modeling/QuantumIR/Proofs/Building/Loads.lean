import QuantumIR.Loading
import QuantumIR.Proofs.Building.Limits
import QuantumIR.Proofs.Reading.Writable
import QuantumIR.Proofs.Verified.Canonical

/-!
What a builder prints is loaded again. The helpers of a builder write types of the catalog; where
their values fit these types, the text of a finished module spells a module that keeps all rules
and has the same text.
-/

namespace QuantumIR

open Builder

/-- A value may stand at a type: an integer constant at the type of integers, and a number at
the type of floating-point numbers. A string that a program holds is shorter than half of the
address space. -/
def Value.Fits (value : Value) (ty : Ty) : Prop :=
  match value with
  | .int _ => ty.intWidth?.isSome
  | .double _ => ty = .double
  | .firstByte _ length => length.toNat < 2 ^ 63
  | _ => True

theorem Value.Fits.writable {value : Value} {ty : Ty} (h : value.Fits ty) (hty : ty.Sized) :
    value.Writable ty := by
  cases value with
  | double x => exact ty.isDouble_iff.mpr h
  | address n => exact hty
  | firstByte name length => exact h
  | _ => trivial

theorem Value.Fits.plain {value : Value} {ty : Ty} (h : value.Fits ty) : value.Plain ty := by
  cases value with
  | int n =>
    rintro rfl
    exact absurd h Bool.false_ne_true
  | _ => trivial

/-- A string that can be held with a zero byte at its end. -/
def Text.Fits (text : String) : Prop :=
  (Text.utf8 text.toList ++ [0]).length < 2 ^ 63

instance (text : String) : Decidable (Text.Fits text) :=
  inferInstanceAs (Decidable ((Text.utf8 text.toList ++ [0]).length < 2 ^ 63))

namespace BuildStep

/-- The arguments of a call to the catalog fit its parameters. -/
def FitsCall (callee : Intrinsic) (args : List Value) : Prop :=
  ∀ arg ∈ Building.typedArgs callee args, arg.value.Fits arg.ty

/-- Steps whose values fit the types that they are used at: calls to the catalog, instructions,
blocks and branches, but no calls or declarations with types of their own. A choice is one
between integers of 1 to 64 bits. -/
def Plain : BuildStep → Prop
  | .perform callee args | .evaluate callee args | .intrinsic callee args => FitsCall callee args
  | .rotatePair _ _ a b => a.Fits .qubit ∧ b.Fits .qubit
  | .record kind value label =>
    (∀ ty ∈ (Intrinsic.record kind).signature.params.head?, value.Fits ty) ∧
      ∀ string ∈ label, Text.Fits string
  | .addString string => Text.Fits string
  | .binary _ width lhs rhs | .compare _ width lhs rhs =>
    lhs.Fits (.int width) ∧ rhs.Fits (.int width)
  | .convert _ source value _ => value.Fits (.int source)
  | .select condition ty onTrue onFalse => condition.Fits .bool ∧
    (∃ width, ty = .int width ∧ 1 ≤ width ∧ width ≤ 64) ∧ onTrue.Fits ty ∧ onFalse.Fits ty
  | .branchIf condition _ _ | .ifElse condition _ _ => condition.Fits .bool
  | .ifResult operand _ _ => operand.Fits .result
  | .call .. | .declare .. => False
  | .appendBlock _ | .position _ | .branch _ | .ret | .qubit _ | .result _ | .qubits | .results
  | .text => True

theorem Plain.typed {step : BuildStep} (h : step.Plain) : step.Typed := by
  cases step with
  | select condition ty onTrue onFalse =>
    obtain ⟨-, ⟨width, rfl, hwidth⟩, -⟩ := h
    exact int_supported hwidth
  | call name ret args => exact absurd h id
  | declare name signature => exact absurd h id
  | _ => trivial

end BuildStep

/-- An instruction whose values fit the types that they are used at. -/
structure Instruction.Fitting (instruction : Instruction) : Prop where
  types : ∀ ty ∈ instruction.types, ty.Sized
  uses : ∀ use ∈ instruction.uses, use.2.Fits use.1

/-- What is built of values that fit. -/
def Builder.Additions.fitting : Additions where
  instruction := Instruction.Fitting
  declaration _ signature := signature.ret.Sized ∧ ∀ ty ∈ signature.params, ty.Sized
  text := Text.Fits

namespace Builder

variable {additions : Additions} {builder : Builder} {instruction : Instruction}

/-- All lengths in types of the catalog can be written. -/
theorem sized_catalog (callee : Intrinsic) : callee.signature.ret.Sized ∧
    ∀ ty ∈ callee.signature.params, ty.Sized := by
  cases callee with
  | record kind => cases kind <;> decide
  | _ => simp [Intrinsic.signature, Ty.Sized, Ty.qubit, Ty.result, Ty.bool, Ty.label]

theorem callsWithin_fitting {callee : Intrinsic} {args : List Value}
    (h : BuildStep.FitsCall callee args) : BuildStep.CallsWithin .fitting callee args := by
  refine ⟨?_, sized_catalog callee⟩
  intro _ result
  obtain ⟨hret, hparams⟩ := sized_catalog callee
  constructor
  · intro ty hty
    simp only [Instruction.types, Instruction.operands, List.mem_append, List.mem_singleton,
      List.mem_filterMap, List.mem_map] at hty
    rcases hty with rfl | ⟨_, ⟨arg, harg, rfl⟩, hty⟩
    · exact hret
    · cases hty
      obtain ⟨⟨ty, value⟩, hpair, rfl⟩ := List.mem_map.mp harg
      exact hparams ty (List.of_mem_zip hpair).1
  · intro use huse
    obtain ⟨arg, harg, rfl⟩ := List.mem_map.mp huse
    exact h arg harg

theorem fitting_branchIf {condition : Value} (h : condition.Fits .bool) (onTrue onFalse : String) :
    (Instruction.branchIf condition onTrue onFalse).Fitting where
  types := by simp [Instruction.types, Instruction.operands]
  uses := by simpa [Instruction.uses] using h

theorem fitting_branch (target : String) : (Instruction.branch target).Fitting where
  types := by simp [Instruction.types, Instruction.operands]
  uses := by simp [Instruction.uses]

/-- The arguments of a record fit: a value of its kind and a label. -/
theorem fitsCall_record {kind : RecordKind} {value labelValue : Value} {label : Option String}
    (hvalue : ∀ ty ∈ (Intrinsic.record kind).signature.params.head?, value.Fits ty)
    (htext : ∀ string ∈ label, Text.Fits string)
    (hlabel : BuildStep.IsLabelValue label labelValue) :
    BuildStep.FitsCall (.record kind) [value, labelValue] := by
  have hfits : ∀ ty, labelValue.Fits ty := by
    intro ty
    cases label with
    | none =>
      have hnull : labelValue = .null := hlabel
      rw [hnull]
      trivial
    | some string =>
      obtain ⟨name, rfl⟩ := hlabel
      have hlength : (Text.utf8 string.toList ++ [0]).length < 2 ^ 63 := htext string rfl
      change (UInt64.ofNat _).toNat < 2 ^ 63
      rw [UInt64.toNat_ofNat']
      exact (Nat.mod_le _ _).trans_lt hlength
  intro arg harg
  rw [Building.typedArgs] at harg
  cases kind with
  | result | array | tuple | bool | int | double =>
    simp only [Intrinsic.signature, List.zip_cons_cons, List.zip_nil_left, List.map_cons,
      List.map_nil, List.mem_cons, List.not_mem_nil, or_false] at harg
    rcases harg with rfl | rfl
    · exact hvalue _ rfl
    · exact hfits _

theorem within_fitting {step : BuildStep} (h : step.Plain) : step.Within .fitting := by
  cases step with
  | perform callee args | evaluate callee args | intrinsic callee args =>
    exact callsWithin_fitting h
  | rotatePair callee theta a b =>
    rintro axis rfl
    apply callsWithin_fitting
    intro arg harg
    simp only [Building.typedArgs, Intrinsic.signature, List.zip_cons_cons, List.zip_nil_left,
      List.map_cons, List.map_nil, List.mem_cons, List.not_mem_nil, or_false] at harg
    rcases harg with rfl | rfl | rfl
    · exact rfl
    · exact h.1
    · exact h.2
  | record kind value label =>
    exact ⟨h.2, fun labelValue hlabel => callsWithin_fitting (fitsCall_record h.1 h.2 hlabel)⟩
  | addString string => exact h
  | binary op width lhs rhs | compare predicate width lhs rhs =>
    obtain ⟨hlhs, hrhs⟩ := h
    intro name
    constructor
    · simp [Instruction.types, Instruction.operands, Ty.Sized]
    · simp [Instruction.uses, hlhs, hrhs]
  | convert conversion source value target =>
    have hvalue : value.Fits (.int source) := h
    intro name
    constructor
    · simp [Instruction.types, Instruction.operands, Ty.Sized]
    · simp [Instruction.uses, hvalue]
  | select condition ty onTrue onFalse =>
    obtain ⟨hcondition, ⟨width, rfl, -⟩, hTrue, hFalse⟩ := h
    intro name
    constructor
    · simp [Instruction.types, Instruction.operands, Ty.Sized]
    · simp [Instruction.uses, hcondition, hTrue, hFalse]
  | branch target => exact fitting_branch target
  | branchIf condition onTrue onFalse => exact fitting_branchIf h onTrue onFalse
  | ret =>
    constructor
    · simp [Instruction.types, Instruction.operands]
    · simp [Instruction.uses]
  | ifElse condition onTrue onFalse => exact ⟨fitting_branchIf h, fitting_branch⟩
  | ifResult operand onOne onZero =>
    refine ⟨callsWithin_fitting ?_, fun register => ⟨fitting_branchIf trivial, fitting_branch⟩⟩
    intro arg harg
    simp only [Building.typedArgs, Intrinsic.signature, List.zip_cons_cons, List.zip_nil_left,
      List.map_cons, List.map_nil, List.mem_singleton] at harg
    rw [harg]
    exact h
  | call name ret args => exact absurd h id
  | declare name signature => exact absurd h id
  | _ => trivial

theorem fits_renameValue {value : Value} {ty : Ty} (h : value.Fits ty)
    (names : Bindings String String) : (renameValue names value).Fits ty := by
  cases value with
  | reg name => trivial
  | _ => exact h

theorem uses_renumbered (names : Bindings String String) (instruction : Instruction) :
    (renumbered names instruction).uses =
      instruction.uses.map fun use => (use.1, renameValue names use.2) := by
  cases instruction with
  | call result ret callee args =>
    simp [renumbered, Instruction.mapResult, Instruction.mapValues, Instruction.uses,
      Function.comp_def]
  | ret operand => cases operand <;> rfl
  | _ => rfl

theorem fitting_renumbered (h : instruction.Fitting) (names : Bindings String String) :
    (renumbered names instruction).Fitting where
  types := by
    rw [renumbered, Instruction.types_mapValues, Instruction.types_mapResult]
    exact h.types
  uses := by
    rw [uses_renumbered, List.forall_mem_map]
    exact fun use huse => fits_renameValue (h.uses use huse) names

theorem bindsValue_renumbered (hstands : builder.Stands instruction)
    (names : Bindings String String) : (renumbered names instruction).BindsValue := by
  cases instruction with
  | call result ret callee args =>
    have hresult : result.isNone ↔ ret.isVoid := hstands.1
    change (result.map (rename names)).isSome ↔ ret ≠ .void
    rw [Option.isSome_map, ne_eq, ← Ty.isVoid_iff, ← hresult]
    cases result <;> simp
  | _ => trivial

/-- A builder adds no returns of a value. -/
theorem returnsValue_renumbered (hstands : builder.Stands instruction)
    (names : Bindings String String) : (renumbered names instruction).ReturnsValue := by
  cases instruction with
  | ret operand =>
    have hnone : operand = none := hstands
    rw [hnone]
    trivial
  | _ => trivial

/-- What a builder made sure of lets an instruction be written. -/
theorem writable_renumbered (hstands : builder.Stands instruction) (h : instruction.Fitting)
    (names : Bindings String String) : (renumbered names instruction).Writable := by
  have hfitting := fitting_renumbered h names
  exact Instruction.writable_of_uses hfitting.types (bindsValue_renumbered hstands names)
    (fun use huse => Value.Fits.writable (hfitting.uses use huse))
    (returnsValue_renumbered hstands names)

/-- The text of a block of a finished module spells a block of its form. -/
theorem formed_block (h : builder.Sound additions) {block : Block}
    (hblock : block ∈ builder.entry.blocks) : block.Formed := by
  rw [entry, renumber_eq] at hblock
  obtain ⟨old, hold, rfl⟩ := List.mem_map.mp hblock
  constructor
  · intro instruction hmem
    obtain ⟨before, hbefore, rfl⟩ := List.mem_map.mp hmem
    have hstands := h.stands before (List.mem_flatMap.mpr ⟨old, hold, hbefore⟩)
    exact ⟨bindsValue_renumbered hstands _, returnsValue_renumbered hstands _⟩
  · intro instruction hmem
    rw [← List.map_dropLast] at hmem
    obtain ⟨before, hbefore, rfl⟩ := List.mem_map.mp hmem
    rw [renumbered, Instruction.isTerminator_mapValues, Instruction.isTerminator_mapResult]
    exact h.terminators old hold before hbefore

theorem formed_function (h : builder.Sound additions) {function : Function}
    (hfunction : function ∈ builder.finished.functions) : function.Formed := by
  rcases List.mem_cons.mp hfunction with rfl | hdeclared
  · exact ⟨fun _ hnil => absurd hnil List.not_mem_nil, fun _ => formed_block h⟩
  · obtain ⟨name, signature, rfl, -⟩ := h.declarations function hdeclared
    exact ⟨fun _ _ hdefinition => Bool.noConfusion hdefinition,
      fun _ hnil => absurd hnil List.not_mem_nil⟩

theorem writable_block (h : builder.Sound .fitting) {block : Block}
    (hblock : block ∈ builder.entry.blocks) : block.Writable := by
  constructor
  · intro instruction hmem
    rw [entry, renumber_eq] at hblock
    obtain ⟨old, hold, rfl⟩ := List.mem_map.mp hblock
    obtain ⟨before, hbefore, rfl⟩ := List.mem_map.mp hmem
    have hinstruction : before ∈ builder.instructions :=
      List.mem_flatMap.mpr ⟨old, hold, hbefore⟩
    exact writable_renumbered (h.stands before hinstruction) (h.allowed before hinstruction) _
  · exact (formed_block h hblock).2

theorem writable_function (h : builder.Sound .fitting) {function : Function}
    (hfunction : function ∈ builder.finished.functions) : function.Writable := by
  rcases List.mem_cons.mp hfunction with rfl | hdeclared
  · exact ⟨trivial, fun _ hnil => absurd hnil List.not_mem_nil, fun _ => writable_block h⟩
  · obtain ⟨name, signature, rfl, -, hret, hparams⟩ := h.declarations function hdeclared
    refine ⟨hret, ?_, fun _ hnil => absurd hnil List.not_mem_nil⟩
    intro param hparam
    obtain ⟨ty, hty, rfl⟩ := List.mem_map.mp hparam
    exact ⟨hparams ty hty, fun hdefinition => Bool.noConfusion hdefinition⟩

theorem writable_attributes (h : builder.Sound additions) {function : Function}
    (hfunction : function ∈ builder.finished.functions) :
    ∀ attr ∈ function.attributes, attr.Writable := by
  rcases List.mem_cons.mp hfunction with rfl | hdeclared
  · simp [entry, entryAttributes, Attribute.Writable]
  · obtain ⟨name, signature, rfl, -⟩ := h.declarations function hdeclared
    rw [declarationOf]
    split <;> simp [Attribute.Writable]

theorem writable_finished (h : builder.Sound .fitting) : builder.finished.Writable where
  distinct := nodup_globals h
  sized := by
    intro global hglobal
    obtain ⟨text, hfits, hbytes⟩ := h.texts global hglobal
    rw [hbytes]
    exact hfits
  functions := fun _ => writable_function h
  attributes := fun _ => writable_attributes h

/-- The text of a finished module spells a module of its form if its strings can be held. -/
theorem formed_finished (h : builder.Sound additions)
    (hheld : ∀ global ∈ builder.globals, global.bytes.length < 2 ^ 63) : builder.finished.Formed where
  distinct := nodup_globals h
  sized := hheld
  functions := fun _ => formed_function h
  attributes := fun _ => writable_attributes h

theorem nodup_eraseDups {α : Type} [BEq α] [LawfulBEq α] (items : List α) :
    items.eraseDups.Nodup := by
  induction h : items.length using Nat.strong_induction_on generalizing items with
  | _ count ih =>
    cases items with
    | nil => exact List.nodup_nil
    | cons item rest =>
      rw [List.eraseDups_cons, List.nodup_cons]
      have hshorter : (rest.filter fun other => !other == item).length < count := by
        have hle := List.length_filter_le (fun other => !other == item) rest
        rw [List.length_cons] at h
        omega
      refine ⟨?_, ih _ hshorter _ rfl⟩
      simp [List.mem_eraseDups]

/-- There are at most two groups of attributes: those of the entry point and those of
declarations that cannot be undone. -/
theorem attributeGroups_finished (h : builder.Sound additions) :
    builder.finished.attributeGroups.length ≤ 2 := by
  have hgroups : builder.finished.attributeGroups ⊆
      [builder.entryAttributes, [.flag "irreversible"]] := by
    intro group hgroup
    rw [Module.attributeGroups, List.mem_eraseDups, List.mem_filter] at hgroup
    obtain ⟨hgroup, hne⟩ := hgroup
    obtain ⟨function, hfunction, rfl⟩ := List.mem_map.mp hgroup
    rcases List.mem_cons.mp (Module.mem_functions hfunction) with rfl | hdeclared
    · exact List.mem_cons_self
    · obtain ⟨name, signature, rfl, -⟩ := h.declarations function hdeclared
      have hattributes : (declarationOf name signature).attributes =
          if (Intrinsic.ofName? name).any Intrinsic.isIrreversible then [.flag "irreversible"]
          else [] := rfl
      rw [hattributes] at hne ⊢
      split at hne
      · next hirreversible =>
        rw [if_pos hirreversible]
        exact List.mem_cons_of_mem _ (List.mem_singleton_self _)
      · exact absurd hne Bool.false_ne_true
  have hnodup : builder.finished.attributeGroups.Nodup := nodup_eraseDups _
  exact (hnodup.subperm hgroups).length_le

theorem plain_finished (h : builder.Sound .fitting) : builder.finished.Plain := by
  intro function hfunction instruction hmem use huse
  rcases List.mem_cons.mp hfunction with rfl | hdeclared
  · rw [Function.instructions, entry, instructions_renumber] at hmem
    obtain ⟨old, hold, rfl⟩ := List.mem_map.mp hmem
    exact Value.Fits.plain ((fitting_renumbered (h.allowed old hold) _).uses use huse)
  · obtain ⟨name, signature, rfl, -⟩ := h.declarations function hdeclared
    exact absurd hmem List.not_mem_nil

/-- A module built by plain steps is loaded from its text. -/
theorem load_finished {name : String} {qubits results : Int64} {first last : Builder}
    {module : Module} (hcreate : create name qubits.toInt results.toInt = .ok first)
    (hsession : Session BuildStep.Plain first last) (hfinish : last.finish = .ok module) :
    Module.load module.text = .ok module.canonical := by
  obtain ⟨hterminated, rfl⟩ := finish_eq_ok hfinish
  have hfitting : last.Sound .fitting :=
    sound_of_session hcreate hsession fun _ => within_fitting
  have htyped : last.Sound .typed :=
    sound_of_session hcreate hsession fun _ h => within_typed h.typed
  have hextends := (hsession.later fun _ => within_fitting).extends
  obtain ⟨hqubits, hresults⟩ := counts_create hcreate
  have hverified := verified_finished htyped hterminated
    (hextends.qubitCount ▸ hqubits) (hextends.resultCount ▸ hresults)
  have hparse := Module.parse_text (writable_finished hfitting)
    ((attributeGroups_finished hfitting).trans (by decide))
  have hverify := (Module.verify_canonical last.finished).mpr
    (Module.verify_eq_ok_iff.mpr ⟨_, _, _, hverified⟩)
  exact Module.load_eq_ok_iff.mpr ⟨hparse, hverify⟩

/-- What is printed of a module built by plain steps is loaded, and printed as it was. -/
theorem load_text_finished {name : String} {qubits results : Int64} {first last : Builder}
    {module : Module} (hcreate : create name qubits.toInt results.toInt = .ok first)
    (hsession : Session BuildStep.Plain first last) (hfinish : last.finish = .ok module) :
    ∃ loaded, Module.load module.text = .ok loaded ∧ loaded.text = module.text := by
  have hload := load_finished hcreate hsession hfinish
  obtain ⟨-, rfl⟩ := finish_eq_ok hfinish
  have hfitting : last.Sound .fitting :=
    sound_of_session hcreate hsession fun _ => within_fitting
  exact ⟨last.finished.canonical, hload, Module.text_canonical (plain_finished hfitting)⟩

/-- A truth value in either spelling of its constant, recorded under a label of several lines. -/
def plainSteps : List BuildStep :=
  [.select (.int 5) (.int 8) (.int (-1)) (.int 2), .record .bool (.int 7) (some "a\n\"b\""),
    .rotatePair (.rotatePair .x) ⟨0x7FF8000000000000⟩ .null .null, .ret]

/-- Steps without bodies, one after the other. -/
def afterAll (builder : Builder) (steps : List BuildStep) : Builder :=
  steps.foldl (fun builder step => builder.after step.run) builder

theorem session_afterAll {steps : List BuildStep} {kind : BuildStep → Prop}
    (hsimple : ∀ step ∈ steps, step.isStructured = false) (h : ∀ step ∈ steps, kind step)
    (builder : Builder) : Session kind builder (builder.afterAll steps) := by
  induction steps generalizing builder with
  | nil => exact .refl builder
  | cons step rest ih =>
    obtain ⟨hstep, hrest⟩ := List.forall_mem_cons.mp h
    obtain ⟨hstep', hrest'⟩ := List.forall_mem_cons.mp hsimple
    exact (Session.step builder step hstep' hstep).trans (ih hrest' hrest _)

theorem load_plain :
    create "small" (1 : Int64).toInt (1 : Int64).toInt = .ok small ∧
    (∀ step ∈ plainSteps, step.Plain) ∧
    ∃ loaded, Module.load (small.afterAll plainSteps).finished.text = .ok loaded ∧
      loaded.text = (small.afterAll plainSteps).finished.text := by
  have hcreate : create "small" (1 : Int64).toInt (1 : Int64).toInt = .ok small := by rfl
  have hplain : ∀ step ∈ plainSteps, step.Plain := by
    have hwidth : ∃ width, Ty.int 8 = .int width ∧ 1 ≤ width ∧ width ≤ 64 :=
      ⟨8, rfl, by decide, by decide⟩
    have htext : ∀ string ∈ some "a\n\"b\"", Text.Fits string := by
      rintro _ ⟨⟩
      decide +kernel
    simp only [plainSteps, List.forall_mem_cons]
    exact ⟨⟨rfl, hwidth, rfl, rfl⟩, ⟨fun _ hty => Option.some.inj hty ▸ rfl, htext⟩,
      ⟨trivial, trivial⟩, trivial, fun _ hnil => absurd hnil List.not_mem_nil⟩
  exact ⟨hcreate, hplain, load_text_finished hcreate (session_afterAll (by decide) hplain small)
    (finish_of_terminated (by decide +kernel))⟩

end Builder

end QuantumIR
