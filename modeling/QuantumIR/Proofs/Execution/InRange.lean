import QuantumIR.Proofs.Execution.Catalog
import QuantumIR.Proofs.Execution.Negative
import QuantumIR.Proofs.Verified.Starting

/-!
Static indices at run time. The rules look at the constants that an entry point writes as arguments
of its calls. An argument can also be a register, and then its index is one of the constants that
chains of choices bring there. If those are in range too, every operation of a run is.
-/

namespace QuantumIR

open Verification

/-- A function calls functions of the catalog only, and allocates no qubits. -/
def Function.CallsCatalog (module : Module) (function : Function) : Prop :=
  ∀ instruction ∈ function.instructions, ∀ callee ∈ instruction.callee?,
    module.definition? callee = none ∧
      ∃ intrinsic ∈ Intrinsic.ofName? callee, intrinsic ≠ .qubitAllocate

instance (module : Module) (function : Function) : Decidable (function.CallsCatalog module) :=
  inferInstanceAs (Decidable (∀ instruction ∈ function.instructions,
    ∀ callee ∈ instruction.callee?, module.definition? callee = none ∧
      ∃ intrinsic ∈ Intrinsic.ofName? callee, intrinsic ≠ .qubitAllocate))

/-- The indices that a value may stand for in a function: the one of a constant, and those of the
alternatives that a register is chosen from. -/
inductive Function.MayIndex (function : Function) : Value → Nat → Prop
  | constant {value : Value} {index : Nat} : value.index? = some index → MayIndex function value index
  | onTrue {result : String} {condition : Value} {ty : Ty} {onTrue onFalse : Value} {index : Nat} :
      .select result condition ty onTrue onFalse ∈ function.instructions →
      MayIndex function onTrue index → MayIndex function (.reg result) index
  | onFalse {result : String} {condition : Value} {ty : Ty} {onTrue onFalse : Value} {index : Nat} :
      .select result condition ty onTrue onFalse ∈ function.instructions →
      MayIndex function onFalse index → MayIndex function (.reg result) index

/-- The indices that registers may stand for as arguments of calls are those of qubits and results
that there are. -/
def Function.ChoosesBelow (count : Register → Nat) (function : Function) : Prop :=
  ∀ result ret callee args, .call result ret callee args ∈ function.instructions →
    ∀ (place : Nat) (arg : Operand), args[place]? = some arg →
      ∀ register, register? (arg.countedTy callee place) = some register →
        ∀ name, arg.value = .reg name →
          ∀ index, function.MayIndex (.reg name) index → index < count register

/-- A frame of a function whose registers hold indices that they may stand for. -/
structure Frame.Indexed (entry : Function) (frame : Frame) : Prop where
  function : frame.function = entry
  registers : ∀ name index, frame.registers.get? name = some (.pointer (.index index)) →
    entry.MayIndex (.reg name) index

namespace Frame

variable {entry : Function} {frame : Frame}

theorem Indexed.mayIndex (h : frame.Indexed entry) {ty : Ty} {value : Value} {index : Nat}
    (hdatum : frame.datum ty value = .ok (.pointer (.index index))) : entry.MayIndex value index := by
  rcases index?_or_reg_of_datum hdatum with hconstant | ⟨name, rfl, hregister⟩
  · exact .constant hconstant
  · exact h.registers name index hregister

theorem Indexed.bind (h : frame.Indexed entry) {name : String} {datum : Datum}
    (hdatum : ∀ index, datum = .pointer (.index index) → entry.MayIndex (.reg name) index) :
    (frame.bind name datum).Indexed entry := by
  refine ⟨h.function, ?_⟩
  intro other index hregister
  rw [Frame.bind, Bindings.get?_set] at hregister
  split at hregister
  · next heq =>
    subst heq
    exact hdatum index (Option.some.inj hregister)
  · exact h.registers other index hregister

theorem Indexed.bindResult (h : frame.Indexed entry) (name : Option String)
    {datum : Option Datum} (hdatum : ∀ index, datum ≠ some (.pointer (.index index))) :
    (frame.bindResult name datum).Indexed entry := by
  cases name with
  | none => exact h
  | some name =>
    cases datum with
    | none => exact h
    | some datum => exact h.bind fun index heq => absurd (congrArg some heq) (hdatum index)

/-- Only a choice puts an index into a register. -/
theorem Indexed.computes (h : frame.Indexed entry) {instruction : Instruction}
    (hmem : instruction ∈ entry.instructions) {name : String} {datum : Datum}
    (hcomputes : frame.Computes instruction name datum) :
    (frame.bind name datum).Indexed entry := by
  refine h.bind ?_
  rintro index rfl
  cases hcomputes with
  | @select _ _ _ _ _ truth _ _ hdatum =>
    cases truth with
    | true => exact .onTrue hmem (h.mayIndex hdatum)
    | false => exact .onFalse hmem (h.mayIndex hdatum)

theorem Indexed.jump (h : frame.Indexed entry) {label : String} {next : Frame}
    (hjump : frame.jump label = .ok next) : next.Indexed entry := by
  obtain ⟨block, -, rfl⟩ := Machine.jump_eq_ok_iff.mp hjump
  exact ⟨h.function, h.registers⟩

end Frame

namespace Machine

variable {module : Module} {limits : Limits} {entry : Function} {machine next : Machine}
  {call : Option CatalogCall}

/-- A machine that runs one function only, or has returned from it. -/
def Alone (entry : Function) (machine : Machine) : Prop :=
  machine.frames = [] ∨ ∃ frame, machine.frames = [frame] ∧ frame.Indexed entry

theorem alone_start (entry : Function) (stream : Option (List Bool)) :
    (Machine.start entry stream).Alone entry := by
  have hempty : (Frame.enter entry [] none).Holds fun _ => False :=
    Frame.holds_enter (List.forall_mem_nil _) entry none
  exact Or.inr ⟨_, rfl, rfl, fun name index hregister => (hempty name _ hregister).elim⟩

/-- A function that calls the catalog only stays alone. -/
theorem Steps.alone (h : Steps module limits machine call next) (hplaced : machine.Placed module)
    (hcalls : entry.CallsCatalog module) (halone : machine.Alone entry) : next.Alone entry := by
  cases h with
  | @execute frame callers state ticked instruction rest call next hrest _ hexecutes =>
    obtain hnil | ⟨found, hframes, hindexed⟩ := halone
    · cases hnil
    · obtain ⟨rfl, rfl⟩ := List.cons.inj hframes
      have hmem : instruction ∈ entry.instructions := by
        rw [← hindexed.function]
        exact (hplaced frame List.mem_cons_self).mem_instructions hrest
      have hhere : Frame.Indexed entry { frame with rest } := ⟨hindexed.function, hindexed.registers⟩
      cases hexecutes with
      | compute hcomputes => exact Or.inr ⟨_, rfl, hhere.computes hmem hcomputes⟩
      | jump _ hjump => exact Or.inr ⟨_, rfl, hhere.jump hjump⟩
      | enter _ hfunction _ =>
        obtain ⟨hnone, -⟩ := hcalls _ hmem _ rfl
        rw [hfunction] at hnone
        cases hnone
      | leave _ => exact Or.inl rfl
      | perform _ _ hname hperform =>
        obtain ⟨-, intrinsic, hintrinsic, hne⟩ := hcalls _ hmem _ rfl
        refine Or.inr ⟨_, rfl, hhere.bindResult _ ?_⟩
        intro index hvalue
        cases hname.symm.trans hintrinsic
        exact hne ((Run.performs_of_perform hperform).eq_qubitAllocate hvalue)

/-- What an operation is about is in range if constants and choices are. -/
theorem Steps.lt_count {made : CatalogCall} (h : Steps module limits machine (some made) next)
    (hplaced : machine.Placed module) (halone : machine.Alone entry) {count : Register → Nat}
    (hconstants : ∀ instruction ∈ entry.instructions, instruction.IndicesBelow count)
    (hchosen : entry.ChoosesBelow count) {operation : Operation}
    (hoperation : made.effect.operation = some operation) {place index : Nat} {ty : Ty}
    {register : Register} (hdata : operation.data[place]? = some (.pointer (.index index)))
    (hty : operation.callee.signature.params[place]? = some ty)
    (hregister : register? ty = some register) : index < count register := by
  obtain ⟨frame, callers, result, ret, callee, operands, rest, operand, hframes, hrest, hname,
    hoperand, hdatum⟩ := h.exists_operand hoperation hdata
  have hframe : frame ∈ machine.frames := by rw [hframes]; exact List.mem_cons_self
  obtain hnil | ⟨found, hfound, hindexed⟩ := halone
  · rw [hnil] at hframe
    cases hframe
  · rw [hfound] at hframe
    obtain rfl := List.mem_singleton.mp hframe
    have hmem : .call result ret callee operands ∈ entry.instructions := by
      rw [← hindexed.function]
      exact (hplaced frame (by rw [hfound]; exact List.mem_cons_self)).mem_instructions hrest
    have hcounted : register? (operand.countedTy callee place) = some register := by
      rwa [operand.countedTy_eq hname hty]
    rcases Frame.index?_or_reg_of_datum hdatum with hconstant | ⟨name, hvalue, hheld⟩
    · exact hconstants _ hmem place operand hoperand register hcounted index hconstant
    · exact hchosen result ret callee operands hmem place operand hoperand register hcounted name
        hvalue index (hindexed.registers name index hheld)

/-- The operations of a run stay in range, and the run stays in its entry point. -/
theorem Runs.inRange {qubits results : Nat} {stream : Option (List Bool)}
    {history : List CatalogCall} (h : Runs module limits (.start entry stream) history machine)
    (hverified : module.Verified entry qubits results)
    (hplaced : (Machine.start entry stream).Placed module) (hcalls : entry.CallsCatalog module)
    (hchosen : entry.ChoosesBelow (registerCounts qubits results)) :
    machine.Alone entry ∧ ∀ operation ∈ operationsOf history,
      (∀ qubit ∈ operation.qubits, qubit < qubits) ∧
        ∀ result, operation.result? = some result → result < results := by
  induction h with
  | refl => exact ⟨alone_start entry stream, by simp [operationsOf]⟩
  | @step history machine next call hruns hstep ih =>
    obtain ⟨halone, hearlier⟩ := ih
    have hhere := hruns.placed hverified hplaced
    refine ⟨hstep.alone hhere hcalls halone, ?_⟩
    intro operation hoperation
    rw [operationsOf_append, List.mem_append] at hoperation
    rcases hoperation with hbefore | hnow
    · exact hearlier operation hbefore
    · obtain ⟨made, hmade, hbecomes⟩ := List.mem_filterMap.mp hnow
      obtain rfl : call = some made := Option.mem_toList.mp hmade
      constructor
      · intro qubit hqubit
        obtain ⟨place, hdata, hty⟩ := operation.exists_place_of_mem_qubits hqubit
        exact hstep.lt_count hhere halone hverified.indices hchosen hbecomes hdata hty rfl
      · intro result hresult
        obtain ⟨place, hdata, hty⟩ := operation.exists_place_of_result? hresult
        exact hstep.lt_count hhere halone hverified.indices hchosen hbecomes hdata hty rfl

/-- A machine that stays in an entry point without negative addresses reports no negative index. -/
theorem Alone.outcome?_ne (h : machine.Alone entry) (hplaced : machine.Placed module)
    (hunsigned : ∀ instruction ∈ entry.instructions, instruction.Unsigned) (index : Int64) :
    machine.outcome? module limits ≠ some (.error (.operand (.negativeIndex index))) := by
  obtain ⟨frames, state⟩ := machine
  obtain hnil | ⟨frame, hframes, hindexed⟩ := h
  · obtain rfl : frames = [] := hnil
    intro h
    cases h
  · obtain rfl : frames = [frame] := hframes
    have hsafe : IndexSafe (step module limits frame [] state) := by
      apply indexSafe_step
      intro instruction rest hrest
      apply hunsigned
      rw [← hindexed.function]
      exact (hplaced frame List.mem_cons_self).mem_instructions hrest
    intro houtcome
    rw [outcome?] at houtcome
    split at houtcome
    · next heq =>
      cases houtcome
      exact hsafe index heq
    · cases houtcome

end Machine

namespace Module

variable {module : Module} {entry : Function} {qubits results : Nat}

/-- A verified entry point keeps to the qubits and results that it gives. Let it call functions of
the catalog only, allocate nothing, hold no negative address, and choose among constants that are
in range wherever the choice is an argument. Then none of its runs reports a negative index, and
all operations of all its runs are on qubits and results below the counts. -/
theorem inRange_of_verify (h : module.verify = .ok ()) (hentry : module.entryPoints = [entry])
    (hqubits : entry.qubitCount? = some qubits) (hresults : entry.resultCount? = some results)
    (hcalls : entry.CallsCatalog module)
    (hchosen : entry.ChoosesBelow (registerCounts qubits results))
    (hunsigned : ∀ instruction ∈ entry.instructions, instruction.Unsigned) {limits : Limits}
    {entryPoint : Option String} (hresolve : module.resolveEntry entryPoint = .ok entry)
    {stream : Option (List Bool)} :
    (∀ (σ : Type) (observer : Observer σ) (seen : σ) (index : Int64),
      (module.evaluate limits observer entryPoint stream seen).1 ≠
        .error (.operand (.negativeIndex index))) ∧
    ∀ start operations machine, module.prepare entryPoint stream = .ok start →
      Machine.Reaches module limits start operations machine →
        ∀ operation ∈ operations, (∀ qubit ∈ operation.qubits, qubit < qubits) ∧
          ∀ result, operation.result? = some result → result < results := by
  obtain ⟨found, qubits', results', hverified⟩ := verify_eq_ok_iff.mp h
  obtain rfl : found = entry := List.singleton_inj.mp (hverified.entryPoints.symm.trans hentry)
  obtain rfl : qubits' = qubits := Option.some.inj (hverified.qubitCount.symm.trans hqubits)
  obtain rfl : results' = results := Option.some.inj (hverified.resultCount.symm.trans hresults)
  have hruns : ∀ start operations machine, module.prepare entryPoint stream = .ok start →
      Machine.Reaches module limits start operations machine →
        machine.Placed module ∧ machine.Alone found ∧
          ∀ operation ∈ operations, (∀ qubit ∈ operation.qubits, qubit < qubits') ∧
            ∀ result, operation.result? = some result → result < results' := by
    intro start operations machine hprepare hreaches
    have hplaced := placed_of_prepare hverified hprepare
    obtain ⟨function, hfunction, rfl⟩ := exists_start_of_prepare hprepare
    cases hfunction.symm.trans hresolve
    obtain ⟨history, hruns, rfl⟩ := Machine.reaches_iff_runs.mp hreaches
    exact ⟨hruns.placed hverified hplaced, hruns.inRange hverified hplaced hcalls hchosen⟩
  refine ⟨?_, fun start operations machine hprepare hreaches =>
    (hruns start operations machine hprepare hreaches).2.2⟩
  intro σ observer seen index herror
  rcases evaluate_error_cases herror with hlimit | hprepare |
    ⟨start, operations, last, hprepare, hreaches, hlast⟩
  · cases hlimit
  · -- What prevents a start is a call that is not supported.
    rw [prepare, hresolve] at hprepare
    dsimp only [bind, Except.bind] at hprepare
    split at hprepare <;> cases hprepare
  · obtain ⟨hplaced, halone, -⟩ := hruns start operations last hprepare hreaches
    exact halone.outcome?_ne hplaced hunsigned index hlast

/-- Chooses between two qubits and measures the one. -/
def choosingMain (n : Int64) : Function where
  name := "main"
  ret := .void
  params := []
  attributes := [.flag "entry_point", .keyValue "required_num_qubits" "2",
    .keyValue "required_num_results" "1"]
  blocks := [⟨"entry", [
    .select "q" (.int 1) .qubit (.address n) .null,
    .call none .void "__quantum__qis__mz__body" [⟨.qubit, .reg "q"⟩, .result 0],
    .ret none]⟩]

def choosing (n : Int64) : Module where
  name := "choosing"
  source := none
  opaqueTypes := ["Qubit", "Result"]
  globals := []
  functions := [choosingMain n,
    Function.declaration "__quantum__qis__mz__body" [.qubit, .result] .void]

theorem instructions_choosingMain (n : Int64) : (choosingMain n).instructions = [
    .select "q" (.int 1) .qubit (.address n) .null,
    .call none .void "__quantum__qis__mz__body" [⟨.qubit, .reg "q"⟩, .result 0],
    .ret none] :=
  rfl

theorem choosesBelow_choosing_one : (choosingMain 1).ChoosesBelow (registerCounts 2 1) := by
  have hselected : ∀ {result condition ty onTrue onFalse},
      .select result condition ty onTrue onFalse ∈ (choosingMain 1).instructions →
        onTrue = .address 1 ∧ onFalse = .null := by
    intro result condition ty onTrue onFalse hmem
    simp only [instructions_choosingMain, List.mem_cons, List.not_mem_nil, or_false, reduceCtorEq,
      Instruction.select.injEq] at hmem
    exact hmem.2.2.2
  have hchosen : ∀ name index, (choosingMain 1).MayIndex (.reg name) index → index < 2 := by
    intro name index hmay
    cases hmay with
    | constant h => cases h
    | onTrue hmem hmay =>
      rw [(hselected hmem).1] at hmay
      cases hmay with
      | constant h =>
        cases h
        decide
    | onFalse hmem hmay =>
      rw [(hselected hmem).2] at hmay
      cases hmay with
      | constant h =>
        cases h
        decide
  intro result ret callee args hmem place arg harg register hregister name hname index hmay
  cases register with
  | qubit => exact hchosen name index hmay
  | result =>
    -- The one argument that counts as a result is a constant.
    simp only [instructions_choosingMain, List.mem_cons, List.not_mem_nil, or_false, reduceCtorEq,
      false_or, Instruction.call.injEq] at hmem
    obtain ⟨rfl, rfl, rfl, rfl⟩ := hmem
    rcases place with _ | _ | place
    · cases harg
      cases hregister
    · cases harg
      cases hname
    · cases harg

theorem inRange_choosing_one : (choosing 1).verify = .ok () ∧
    (choosingMain 1).CallsCatalog (choosing 1) ∧
    (∀ instruction ∈ (choosingMain 1).instructions, instruction.Unsigned) ∧
    ∃ start operations machine, (choosing 1).prepare none none = .ok start ∧
      Machine.Reaches (choosing 1) .standard start operations machine ∧
      operations = [.measureInto 1 0] ∧
      ∀ operation ∈ operations, (∀ qubit ∈ operation.qubits, qubit < 2) ∧
        ∀ result, operation.result? = some result → result < 1 := by
  have hverify : (choosing 1).verify = .ok () := rfl
  have hcalls : (choosingMain 1).CallsCatalog (choosing 1) := by decide
  have hunsigned : ∀ instruction ∈ (choosingMain 1).instructions, instruction.Unsigned := by decide
  have hreaches : ∃ operations machine, Machine.Reaches (choosing 1) .standard
      (.start (choosingMain 1) none) operations machine ∧ operations = [.measureInto 1 0] :=
    ⟨_, _, .step rfl (.step rfl (.refl _)), rfl⟩
  obtain ⟨operations, machine, hreaches, hoperations⟩ := hreaches
  have hprepare := prepare_of_verify hverify rfl (by decide) none
  have hresolve : (choosing 1).resolveEntry none = .ok (choosingMain 1) := rfl
  have hrange := (inRange_of_verify hverify rfl rfl rfl hcalls choosesBelow_choosing_one hunsigned
    hresolve).2 _ operations machine hprepare hreaches
  exact ⟨hverify, hcalls, hunsigned, _, operations, machine, hprepare, hreaches, hoperations,
    hrange⟩

/-- A choice of a qubit that there is not goes unnoticed until it is measured. -/
theorem outOfRange_choosing_five : (choosing 5).verify = .ok () ∧
    (choosingMain 5).CallsCatalog (choosing 5) ∧ (choosingMain 5).qubitCount? = some 2 ∧
    ∃ start operations machine, (choosing 5).prepare none none = .ok start ∧
      Machine.Reaches (choosing 5) .standard start operations machine ∧
      operations = [.measureInto 5 0] := by
  have hverify : (choosing 5).verify = .ok () := rfl
  have hreaches : ∃ operations machine, Machine.Reaches (choosing 5) .standard
      (.start (choosingMain 5) none) operations machine ∧ operations = [.measureInto 5 0] :=
    ⟨_, _, .step rfl (.step rfl (.refl _)), rfl⟩
  obtain ⟨operations, machine, hreaches, hoperations⟩ := hreaches
  have hprepare := prepare_of_verify hverify rfl (by decide) none
  exact ⟨hverify, by decide, rfl, _, operations, machine, hprepare, hreaches, hoperations⟩

end Module

end QuantumIR
