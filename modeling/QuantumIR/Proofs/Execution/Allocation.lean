import QuantumIR.Proofs.Execution.Catalog
import QuantumIR.Proofs.Verified.Starting

/-!
Where indices of qubits come from. An index that an instruction passes on is written in the module
or was allocated, and allocation moves on. So an allocated qubit is a new one, unless the module
hands its index on as a constant.
-/

namespace QuantumIR

open Verification

namespace CatalogCall

/-- A call returns a qubit that it allocates. -/
def Allocates (call : CatalogCall) (index : Nat) : Prop :=
  call.intrinsic = .qubitAllocate ∧ call.effect.value = some (.pointer (.index index))

/-- A call becomes an operation on a qubit. -/
def Uses (call : CatalogCall) (index : Nat) : Prop :=
  ∃ operation, call.effect.operation = some operation ∧ index ∈ operation.qubits

end CatalogCall

/-- An instruction hands on a constant index: to a defined function, as a qubit to a function of
the catalog, as a choice, or to the caller. -/
def Instruction.HandsOn (module : Module) (index : Nat) : Instruction → Prop
  | call _ _ callee args => ∃ (place : Nat) (arg : Operand), args[place]? = some arg ∧
    arg.value.index? = some index ∧ ((module.definition? callee).isSome ∨
      register? (arg.countedTy callee place) = some .qubit)
  | select _ _ _ onTrue onFalse => onTrue.index? = some index ∨ onFalse.index? = some index
  | ret (some operand) => operand.value.index? = some index
  | _ => False

/-- An instruction of a defined function hands on a constant index. -/
def Module.HandsOn (module : Module) (index : Nat) : Prop :=
  ∃ function ∈ module.definitions, ∃ instruction ∈ function.instructions,
    instruction.HandsOn module index

/-- The index that a pointer holds, if it holds one, has a property. -/
def Datum.PointsIn (known : Nat → Prop) (datum : Datum) : Prop :=
  ∀ index, datum = .pointer (.index index) → known index

namespace RunState

variable {state after : RunState}

theorem Takes.nextQubit {value : Bool} (h : Takes state value after) :
    after.nextQubit = state.nextQubit := by
  cases h <;> rfl

theorem Reads.nextQubit {datum : Datum} {value : Bool} (h : Reads state datum value after) :
    after.nextQubit = state.nextQubit := by
  cases h with
  | carried | held => rfl
  | fresh _ htakes =>
    have htaken := htakes.nextQubit
    exact htaken

theorem Records.nextQubit {kind : RecordKind} {datum : Datum} {value : OutputValue}
    (h : Records kind state datum value after) : after.nextQubit = state.nextQubit := by
  cases h <;> rfl

end RunState

/-- An allocation takes the next index, and nothing else moves it or returns an index. -/
theorem Run.Performs.nextQubit_cases {module : Module} {intrinsic : Intrinsic} {args : List Datum}
    {state after : RunState} {effect : Effect}
    (h : Run.Performs module intrinsic args state effect after) :
    after.nextQubit = state.nextQubit ∧ (∀ index, effect.value ≠ some (.pointer (.index index))) ∨
      after.nextQubit = state.nextQubit + 1 ∧
        effect.value = some (.pointer (.index state.nextQubit)) := by
  cases h with
  | allocate _ => exact Or.inr ⟨rfl, rfl⟩
  | operation operation _ =>
    obtain ⟨qubitCount, hstate⟩ := RunState.exists_foldl_useQubit operation.qubits state
    rw [hstate]
    exact Or.inl ⟨rfl, fun _ h => by cases h⟩
  | measure htakes | measureInto _ _ htakes =>
    have htaken := htakes.nextQubit
    exact Or.inl ⟨htaken, fun _ h => by cases h⟩
  | readResult hreads => exact Or.inl ⟨hreads.nextQubit, fun _ h => by cases h⟩
  | resultEqual hfirst hsecond =>
    exact Or.inl ⟨hsecond.nextQubit.trans hfirst.nextQubit, fun _ h => by cases h⟩
  | record hrecords _ =>
    have hrecorded := hrecords.nextQubit
    exact Or.inl ⟨hrecorded, fun _ h => by cases h⟩
  | resultOf | setUp | release => exact Or.inl ⟨rfl, fun _ h => by cases h⟩

namespace Machine

variable {module : Module} {limits : Limits} {machine next : Machine} {known : Nat → Prop}

/-- The pointers in registers stay among known indices if these are all that instructions hand on
and all that calls allocate. -/
theorem Steps.holds_pointsIn {call : Option CatalogCall}
    (h : Steps module limits machine call next) (hplaced : machine.Placed module)
    (hholds : machine.Holds (Datum.PointsIn known))
    (hconstants : ∀ index, module.HandsOn index → known index)
    (hgiven : ∀ made ∈ call, ∀ index, made.effect.value = some (.pointer (.index index)) →
      known index) : next.Holds (Datum.PointsIn known) := by
  cases h with
  | @execute frame callers state ticked instruction rest call next hrest _ hexecutes =>
    obtain ⟨hframe, hcallers⟩ := List.forall_mem_cons.mp hholds
    have hplace := hplaced frame List.mem_cons_self
    have hhandsOn : ∀ index, instruction.HandsOn module index → known index := fun index hon =>
      hconstants index ⟨_, hplace.function, _, hplace.mem_instructions hrest, hon⟩
    -- A pointer is read off a constant that is handed on, or off a register.
    have hread : ∀ (ty : Ty) (value : Value) (index : Nat),
        Frame.datum { frame with rest } ty value = .ok (.pointer (.index index)) →
        (value.index? = some index → instruction.HandsOn module index) → known index := by
      intro ty value index hdatum hon
      rcases Frame.index?_or_reg_of_datum hdatum with hconstant | ⟨name, -, hregister⟩
      · exact hhandsOn index (hon hconstant)
      · exact hframe name _ hregister index rfl
    refine hexecutes.holds_next hframe hcallers ?_
    rintro _ hbrings index rfl
    cases hbrings with
    | computed hcomputes =>
      cases hcomputes with
      | @select _ _ _ onTrue onFalse truth _ _ hdatum =>
        refine hread _ _ index hdatum fun hconstant => ?_
        cases truth with
        | true => exact Or.inl hconstant
        | false => exact Or.inr hconstant
    | passed hdefined hoperand hdatum =>
      obtain ⟨place, hplace⟩ := List.mem_iff_getElem?.mp hoperand
      exact hread _ _ index hdatum fun hconstant =>
        ⟨place, _, hplace, hconstant, Or.inl hdefined⟩
    | returned hdatum => exact hread _ _ index hdatum id
    | given hvalue => exact hgiven _ rfl index hvalue

/-- A qubit that a call uses is handed on as a constant, or stands in a register. -/
theorem Steps.known_of_uses {call : CatalogCall} (h : Steps module limits machine (some call) next)
    (hplaced : machine.Placed module) (hholds : machine.Holds (Datum.PointsIn known))
    (hconstants : ∀ index, module.HandsOn index → known index) {index : Nat}
    (huses : call.Uses index) : known index := by
  obtain ⟨operation, hoperation, hindex⟩ := huses
  obtain ⟨place, hdata, hty⟩ := operation.exists_place_of_mem_qubits hindex
  obtain ⟨frame, callers, result, ret, callee, operands, rest, operand, hframes, hrest, hname,
    hoperand, hdatum⟩ := h.exists_operand hoperation hdata
  have hmem : frame ∈ machine.frames := by rw [hframes]; exact List.mem_cons_self
  have hplace := hplaced frame hmem
  rcases Frame.index?_or_reg_of_datum hdatum with hconstant | ⟨name, -, hregister⟩
  · have hqubit : register? (operand.countedTy callee place) = some .qubit := by
      rw [operand.countedTy_eq hname hty]
      rfl
    exact hconstants index ⟨_, hplace.function, _, hplace.mem_instructions hrest, place, operand,
      hoperand, hconstant, Or.inr hqubit⟩
  · exact hholds frame hmem name _ hregister index rfl

/-- What is known of indices in the middle of a run. Every allocated index lies between the count
that the run starts with and the next one to be allocated; every other index that a register holds
or an operation has used is handed on as a constant. -/
structure Allocated (module : Module) (count : Nat) (history : List CatalogCall)
    (machine : Machine) : Prop where
  least : count ≤ machine.state.nextQubit
  registers : machine.Holds (Datum.PointsIn fun index =>
    module.HandsOn index ∨ index < machine.state.nextQubit)
  allocated : ∀ call ∈ history, ∀ index, call.Allocates index →
    count ≤ index ∧ index < machine.state.nextQubit
  used : ∀ call ∈ history, ∀ index, call.Uses index →
    module.HandsOn index ∨ index < machine.state.nextQubit

theorem allocated_start (module : Module) (function : Function) (stream : Option (List Bool)) :
    Allocated module (function.qubitCount?.getD 0) [] (.start function stream) where
  least := Nat.le_refl _
  registers := holds_start _ function stream
  allocated := by simp
  used := by simp

theorem Allocated.step {call : Option CatalogCall} {count : Nat} {history : List CatalogCall}
    (h : Allocated module count history machine) (hplaced : machine.Placed module)
    (hstep : Steps module limits machine call next) :
    Allocated module count (history ++ call.toList) next := by
  have hmoves : machine.state.nextQubit ≤ next.state.nextQubit := by
    rcases hstep.state_cases with ⟨rfl, hnext⟩ | ⟨made, rfl, hbefore, hperforms, hnext⟩
    · rw [hnext]
    · rw [hnext]
      rcases hperforms.nextQubit_cases with ⟨heq, -⟩ | ⟨heq, -⟩ <;> rw [heq, hbefore]
      exact Nat.le_succ _
  -- What was known before the step is known after it.
  have hmono : ∀ index, module.HandsOn index ∨ index < machine.state.nextQubit →
      module.HandsOn index ∨ index < next.state.nextQubit :=
    fun index => Or.imp_right fun hlt => hlt.trans_le hmoves
  have hholds : machine.Holds (Datum.PointsIn fun index =>
      module.HandsOn index ∨ index < next.state.nextQubit) :=
    fun frame hframe => (h.registers frame hframe).mono fun _ hpoints index heq =>
      hmono index (hpoints index heq)
  have hgiven : ∀ made ∈ call, ∀ index, made.effect.value = some (.pointer (.index index)) →
      count ≤ index ∧ index < next.state.nextQubit := by
    intro made hmade index hvalue
    rcases hstep.state_cases with ⟨rfl, -⟩ | ⟨_, rfl, hbefore, hperforms, hnext⟩
    · cases hmade
    · cases hmade
      rcases hperforms.nextQubit_cases with ⟨-, hnone⟩ | ⟨heq, hindex⟩
      · exact absurd hvalue (hnone index)
      · cases hvalue.symm.trans hindex
        rw [hnext, heq, hbefore]
        exact ⟨h.least, Nat.lt_succ_self _⟩
  refine ⟨h.least.trans hmoves, ?_, ?_, ?_⟩
  · exact hstep.holds_pointsIn hplaced hholds (fun _ => Or.inl) fun made hmade index hvalue =>
      Or.inr (hgiven made hmade index hvalue).2
  · intro made hmade index hallocates
    rcases List.mem_append.mp hmade with hearlier | hnow
    · obtain ⟨hcount, hlt⟩ := h.allocated made hearlier index hallocates
      exact ⟨hcount, hlt.trans_le hmoves⟩
    · exact hgiven made (Option.mem_toList.mp hnow) index hallocates.2
  · intro made hmade index huses
    rcases List.mem_append.mp hmade with hearlier | hnow
    · exact hmono index (h.used made hearlier index huses)
    · obtain rfl : call = some made := Option.mem_toList.mp hnow
      exact hstep.known_of_uses hplaced hholds (fun _ => Or.inl) huses

theorem Runs.allocated {entry function : Function} {qubits results : Nat}
    {stream : Option (List Bool)} {history : List CatalogCall}
    (h : Runs module limits (.start function stream) history machine)
    (hverified : module.Verified entry qubits results)
    (hplaced : (Machine.start function stream).Placed module) :
    Allocated module (function.qubitCount?.getD 0) history machine := by
  induction h with
  | refl => exact allocated_start module function stream
  | step hruns hstep ih => exact ih.step (hruns.placed hverified hplaced) hstep

end Machine

namespace Module

variable {module : Module}

/-- Allocated qubits are new, but for constants that the module hands on. In a run of a verified
module, an index that is allocated is no smaller than the number of qubits that the function the
run starts from gives, was not allocated before, and was used by an operation before only if the
module hands this very index on. -/
theorem fresh_of_allocates (h : module.verify = .ok ()) {limits : Limits}
    {entryPoint : Option String} {stream : Option (List Bool)} {start machine next : Machine}
    {earlier : List CatalogCall} {call : CatalogCall} {index : Nat}
    (hprepare : module.prepare entryPoint stream = .ok start)
    (hruns : Machine.Runs module limits start earlier machine)
    (hstep : Machine.Steps module limits machine (some call) next)
    (hallocates : call.Allocates index) :
    (∀ function, module.resolveEntry entryPoint = .ok function →
      function.qubitCount?.getD 0 ≤ index) ∧
      (∀ before ∈ earlier, ¬before.Allocates index) ∧
      ∀ before ∈ earlier, before.Uses index → module.HandsOn index := by
  obtain ⟨entry, qubits, results, hverified⟩ := verify_eq_ok_iff.mp h
  have hplaced := placed_of_prepare hverified hprepare
  obtain ⟨function, hfunction, rfl⟩ := exists_start_of_prepare hprepare
  have hknown := hruns.allocated hverified hplaced
  -- The index that is allocated is the next one.
  obtain rfl : index = machine.state.nextQubit := by
    rcases hstep.state_cases with ⟨hnone, -⟩ | ⟨made, hmade, hbefore, hperforms, -⟩
    · cases hnone
    · cases hmade
      rcases hperforms.nextQubit_cases with ⟨-, hnone⟩ | ⟨-, hvalue⟩
      · exact absurd hallocates.2 (hnone index)
      · rw [hbefore] at hvalue
        cases hallocates.2.symm.trans hvalue
        rfl
  refine ⟨?_, ?_, ?_⟩
  · intro found hfound
    cases hfunction.symm.trans hfound
    exact hknown.least
  · intro before hbefore hagain
    exact Nat.lt_irrefl _ (hknown.allocated before hbefore _ hagain).2
  · intro before hbefore huses
    exact (hknown.used before hbefore _ huses).resolve_right (Nat.lt_irrefl _)

/-- Calls a function that uses the first qubit, and allocates one. -/
def allocatingMain (qubits : String) : Function where
  name := "main"
  ret := .void
  params := []
  attributes := [.flag "entry_point", .keyValue "required_num_qubits" qubits,
    .keyValue "required_num_results" "0"]
  blocks := [⟨"entry", [
    .call none .void "turn" [],
    .call (some "q") .qubit "__quantum__rt__qubit_allocate" [],
    .call none .void "__quantum__qis__x__body" [⟨.qubit, .reg "q"⟩],
    .ret none]⟩]

def allocating (qubits : String) : Module where
  name := "allocating"
  source := none
  opaqueTypes := ["Qubit"]
  globals := []
  functions := [allocatingMain qubits,
    { name := "turn", ret := .void, params := [], attributes := []
      blocks := [⟨"entry", [.call none .void "__quantum__qis__x__body" [.qubit 0], .ret none]⟩] },
    Function.declaration "__quantum__rt__qubit_allocate" [] .qubit,
    Function.declaration "__quantum__qis__x__body" [.qubit] .void]

theorem fresh_allocating_one : (allocating "1").verify = .ok () ∧
    ∃ start earlier machine call next, (allocating "1").prepare none none = .ok start ∧
      Machine.Runs (allocating "1") .standard start earlier machine ∧
      Machine.Steps (allocating "1") .standard machine (some call) next ∧ call.Allocates 1 ∧
      Machine.operationsOf earlier = [.single .x 0] ∧
      (∀ before ∈ earlier, ¬before.Allocates 1) ∧
      ∀ before ∈ earlier, before.Uses 1 → (allocating "1").HandsOn 1 := by
  have hverify : (allocating "1").verify = .ok () := rfl
  have hprepare := prepare_of_verify hverify rfl (by decide) none
  have hreaches : ∃ operations machine effect before after next,
      Machine.Reaches (allocating "1") .standard (.start (allocatingMain "1") none) operations
        machine ∧
      Machine.Steps (allocating "1") .standard machine
        (some ⟨.qubitAllocate, [], before, effect, after⟩) next ∧
      effect.value = some (.pointer (.index 1)) ∧ operations = [.single .x 0] :=
    ⟨_, _, .ofValue (.pointer (.index 1)), _, _, _, .step rfl (.step rfl (.step rfl (.refl _))),
      .execute rfl rfl (.perform rfl rfl rfl rfl), rfl, rfl⟩
  obtain ⟨operations, machine, effect, before, after, next, hreaches, hstep, hvalue, hoperations⟩ :=
    hreaches
  obtain ⟨earlier, hruns, rfl⟩ := Machine.reaches_iff_runs.mp hreaches
  have hallocates : CatalogCall.Allocates ⟨.qubitAllocate, [], before, effect, after⟩ 1 :=
    ⟨rfl, hvalue⟩
  obtain ⟨-, hnew, hfresh⟩ := fresh_of_allocates hverify hprepare hruns hstep hallocates
  exact ⟨hverify, _, earlier, machine, _, next, hprepare, hruns, hstep, hallocates, hoperations,
    hnew, hfresh⟩

/-- Where a function that the entry point calls uses a qubit that the entry point does not give,
that qubit is allocated again. -/
theorem not_fresh_allocating_zero : (allocating "0").verify = .ok () ∧
    ∃ start earlier machine call next, (allocating "0").prepare none none = .ok start ∧
      Machine.Runs (allocating "0") .standard start earlier machine ∧
      Machine.Steps (allocating "0") .standard machine (some call) next ∧ call.Allocates 0 ∧
      ∃ before ∈ earlier, before.Uses 0 := by
  have hverify : (allocating "0").verify = .ok () := rfl
  have hprepare := prepare_of_verify hverify rfl (by decide) none
  have hreaches : ∃ operations machine effect before after next,
      Machine.Reaches (allocating "0") .standard (.start (allocatingMain "0") none) operations
        machine ∧
      Machine.Steps (allocating "0") .standard machine
        (some ⟨.qubitAllocate, [], before, effect, after⟩) next ∧
      effect.value = some (.pointer (.index 0)) ∧ operations = [.single .x 0] :=
    ⟨_, _, .ofValue (.pointer (.index 0)), _, _, _, .step rfl (.step rfl (.step rfl (.refl _))),
      .execute rfl rfl (.perform rfl rfl rfl rfl), rfl, rfl⟩
  obtain ⟨operations, machine, effect, before, after, next, hreaches, hstep, hvalue, hoperations⟩ :=
    hreaches
  obtain ⟨earlier, hruns, rfl⟩ := Machine.reaches_iff_runs.mp hreaches
  have hused : Operation.single .x 0 ∈ Machine.operationsOf earlier := by
    rw [hoperations]
    exact List.mem_cons_self
  obtain ⟨made, hmade, hoperation⟩ := List.mem_filterMap.mp hused
  exact ⟨hverify, _, earlier, machine, _, next, hprepare, hruns, hstep, ⟨rfl, hvalue⟩, made, hmade,
    _, hoperation, List.mem_cons_self⟩

end Module

end QuantumIR
