import QuantumIR.Proofs.Execution.Rules
import QuantumIR.Proofs.Verified.Execution

/-!
What registers hold. A value gets into a register only if an instruction brings it there, so a
property of all that instructions bring is a property of all that registers hold.
-/

namespace QuantumIR

open Verification

namespace Frame

variable {holds : Datum → Prop} {frame : Frame}

/-- A property of all that the registers of a frame hold. -/
def Holds (holds : Datum → Prop) (frame : Frame) : Prop :=
  ∀ name datum, frame.registers.get? name = some datum → holds datum

theorem Holds.mono {holds' : Datum → Prop} (h : frame.Holds holds)
    (himp : ∀ datum, holds datum → holds' datum) : frame.Holds holds' :=
  fun name datum hdatum => himp datum (h name datum hdatum)

theorem Holds.bind (h : frame.Holds holds) {datum : Datum} (hdatum : holds datum)
    (name : String) : (frame.bind name datum).Holds holds := by
  intro other found hfound
  rw [Frame.bind, Bindings.get?_set] at hfound
  split at hfound
  · cases hfound
    exact hdatum
  · exact h other found hfound

theorem Holds.bindResult (h : frame.Holds holds) {name : Option String} {datum : Option Datum}
    (hdatum : ∀ found ∈ datum, holds found) : (frame.bindResult name datum).Holds holds := by
  cases name with
  | none => exact h
  | some name =>
    cases datum with
    | none => exact h
    | some datum => exact h.bind (hdatum datum rfl) name

theorem Holds.jump (h : frame.Holds holds) {label : String} {next : Frame}
    (hjump : frame.jump label = .ok next) : next.Holds holds := by
  obtain ⟨block, -, rfl⟩ := Machine.jump_eq_ok_iff.mp hjump
  exact h

/-- The index that a value stands for is written in it, or held by its register. -/
theorem index?_or_reg_of_datum {ty : Ty} {value : Value} {index : Nat}
    (h : frame.datum ty value = .ok (.pointer (.index index))) : value.index? = some index ∨
      ∃ name, value = .reg name ∧ frame.registers.get? name = some (.pointer (.index index)) := by
  cases value with
  | reg name =>
    rw [Frame.datum, read] at h
    split at h
    · next hfound =>
      cases h
      exact Or.inr ⟨name, rfl, hfound⟩
    · cases h
  | null =>
    cases h
    exact Or.inl rfl
  | address n =>
    rw [Frame.datum] at h
    split at h
    · next hnonneg =>
      cases h
      exact Or.inl (if_pos hnonneg)
    · cases h
  | int n =>
    cases ty with
    | int width =>
      obtain ⟨_, -, h⟩ := bind_eq_ok.mp h
      cases h
    | _ => cases h
  | double | global | firstByte => cases h

/-- What is found in registers that are set one after the other was there before or comes from one
of the pairs. -/
theorem cases_of_get?_foldl {pairs : List (String × Datum)} {registers : Bindings String Datum}
    {name : String} {datum : Datum}
    (h : (pairs.foldl (fun registers (name, arg) => registers.set name arg) registers).get? name =
      some datum) : registers.get? name = some datum ∨ (name, datum) ∈ pairs := by
  induction pairs generalizing registers with
  | nil => exact Or.inl h
  | cons pair rest ih =>
    obtain ⟨key, arg⟩ := pair
    rcases ih h with hset | hrest
    · rw [Bindings.get?_set] at hset
      split at hset
      · next hkey =>
        cases hset
        exact Or.inr (hkey ▸ List.mem_cons_self)
      · exact Or.inl hset
    · exact Or.inr (List.mem_cons_of_mem _ hrest)

/-- A new frame holds arguments of the call and nothing else. -/
theorem mem_arguments_of_enter {function : Function} {args : List Datum} {returnTo : Option String}
    {name : String} {datum : Datum}
    (h : (Frame.enter function args returnTo).registers.get? name = some datum) :
    (name, datum) ∈ arguments function args := by
  rcases cases_of_get?_foldl h with hempty | hmem
  · cases hempty
  · exact hmem

theorem holds_enter {args : List Datum} (hargs : ∀ arg ∈ args, holds arg) (function : Function)
    (returnTo : Option String) : (Frame.enter function args returnTo).Holds holds := by
  intro name datum hdatum
  obtain ⟨⟨param, arg⟩, hmem, heq⟩ := List.mem_filterMap.mp (mem_arguments_of_enter hdatum)
  obtain ⟨key, -, hkey⟩ := Option.map_eq_some_iff.mp heq
  cases hkey
  exact hargs datum (List.of_mem_zip hmem).2

end Frame

namespace Machine

variable {module : Module} {limits : Limits}

/-- A property of all that the registers of all frames of a machine hold. -/
def Holds (holds : Datum → Prop) (machine : Machine) : Prop :=
  ∀ frame ∈ machine.frames, frame.Holds holds

theorem holds_start (holds : Datum → Prop) (entry : Function) (stream : Option (List Bool)) :
    (Machine.start entry stream).Holds holds :=
  List.forall_mem_singleton.mpr (Frame.holds_enter (List.forall_mem_nil _) entry none)

variable {holds : Datum → Prop} {frame : Frame} {callers : List Frame} {state : RunState}
  {instruction : Instruction} {call : Option CatalogCall} {next : Machine}

/-- What has a property in all registers, and in all that an instruction brings, has it in all
registers after the instruction. -/
theorem Executes.holds_next (h : Executes module limits frame callers state instruction call next)
    (hframe : frame.Holds holds) (hcallers : ∀ caller ∈ callers, caller.Holds holds)
    (hbrings : ∀ datum, frame.Brings module instruction call datum → holds datum) :
    next.Holds holds := by
  cases h with
  | compute hcomputes =>
    exact List.forall_mem_cons.mpr ⟨hframe.bind (hbrings _ (.computed hcomputes)) _, hcallers⟩
  | jump _ hjump => exact List.forall_mem_cons.mpr ⟨hframe.jump hjump, hcallers⟩
  | enter hargs hfunction _ =>
    refine List.forall_mem_cons.mpr ⟨Frame.holds_enter ?_ _ _,
      List.forall_mem_cons.mpr ⟨hframe, hcallers⟩⟩
    intro arg harg
    obtain ⟨operand, hoperand, hdatum⟩ := mem_of_mapM hargs harg
    exact hbrings arg (.passed (by rw [hfunction]; rfl) hoperand hdatum)
  | @leave operand datum hdatum =>
    refine forall_mem_leave hcallers fun caller hcaller => hcaller.bindResult ?_
    rintro found rfl
    cases operand with
    | none => cases hdatum
    | some operand =>
      obtain ⟨value, hvalue, heq⟩ := ok_bind_iff.mp hdatum
      cases heq
      exact hbrings _ (.returned hvalue)
  | perform _ _ _ _ =>
    refine List.forall_mem_cons.mpr ⟨hframe.bindResult ?_, hcallers⟩
    exact fun found hfound => hbrings found (.given hfound)

theorem Steps.placed {entry : Function} {qubits results : Nat} {machine : Machine}
    (h : Steps module limits machine call next) (hverified : module.Verified entry qubits results)
    (hplaced : machine.Placed module) : next.Placed module := by
  have hsteps := h
  cases hsteps with
  | execute _ _ _ => exact (ensures_step hverified hplaced).2 _ (step_eq_ok_iff.mpr ⟨call, h, rfl⟩)

theorem Runs.placed {entry : Function} {qubits results : Nat} {start last : Machine}
    {history : List CatalogCall} (h : Runs module limits start history last)
    (hverified : module.Verified entry qubits results) (hplaced : start.Placed module) :
    last.Placed module :=
  h.preserves hplaced fun _ _ _ hmachine hstep => hstep.placed hverified hmachine

end Machine

end QuantumIR
