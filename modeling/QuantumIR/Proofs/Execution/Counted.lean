import QuantumIR.Proofs.Execution.Parts
import QuantumIR.Proofs.Execution.Rules

/-!
Runs by the number of instructions that they execute. Every step counts one instruction, whatever it
does, so what a run has counted is how far it has come, and a run that never stops comes as far as
any number.
-/

namespace QuantumIR

namespace Run

variable {α : Type}

/-- A part of a run that executes no instruction of its own. -/
def Uncounted (action : Run α) : Prop :=
  ∀ state a after, action state = .ok (a, after) → after.steps = state.steps

theorem composable_uncounted : Composable Uncounted :=
  Allows.composable
    { refl := fun _ => rfl
      trans := fun _ _ _ hfirst hsecond => hsecond.trans hfirst
      useQubit := fun _ _ => rfl
      useResult := fun _ _ => rfl
      note := fun _ _ => rfl
      output := fun _ _ => rfl
      store := fun _ _ _ => rfl
      outcome := fun _ _ => rfl
      allocate := fun _ => rfl }

end Run

namespace Machine

variable {module : Module} {limits : Limits} {frame : Frame} {callers : List Frame}
  {state : RunState} {machine last : Machine} {operations : List Operation} {count limit : Nat}

/-- What a machine comes to by executing so many instructions, with the operations that it hands
on. -/
inductive ReachesIn (module : Module) (limits : Limits) :
    Nat → Machine → List Operation → Machine → Prop
  | refl (machine : Machine) : ReachesIn module limits 0 machine [] machine
  | step {count : Nat} {frame : Frame} {callers : List Frame} {state : RunState}
      {operation : Option Operation} {next last : Machine} {operations : List Operation} :
      Machine.step module limits frame callers state = .ok (operation, next) →
      ReachesIn module limits count next operations last →
      ReachesIn module limits (count + 1) ⟨frame :: callers, state⟩
        (operation.toList ++ operations) last

/-- Whether there is a next instruction. -/
def Fetches : Machine → Prop
  | ⟨[], _⟩ => False
  | ⟨frame :: _, _⟩ => frame.rest ≠ []

instance : (machine : Machine) → Decidable machine.Fetches
  | ⟨[], _⟩ => isFalse id
  | ⟨frame :: _, _⟩ => inferInstanceAs (Decidable (frame.rest ≠ []))

theorem reaches_iff_reachesIn :
    Reaches module limits machine operations last ↔
      ∃ count, ReachesIn module limits count machine operations last := by
  constructor
  · intro h
    induction h with
    | refl machine => exact ⟨0, .refl machine⟩
    | step hstep _ ih =>
      obtain ⟨count, hreaches⟩ := ih
      exact ⟨count + 1, .step hstep hreaches⟩
  · rintro ⟨count, h⟩
    induction h with
    | refl machine => exact .refl machine
    | step hstep _ ih => exact .step hstep ih

theorem steps_of_step {operation : Option Operation} {next : Machine}
    (h : step module limits frame callers state = .ok (operation, next)) :
    next.state.steps = state.steps + 1 := by
  obtain ⟨call, hsteps, -⟩ := step_eq_ok_iff.mp h
  cases hsteps with
  | execute _ htick hexecutes =>
    obtain rfl := eq_of_tick htick
    cases hexecutes with
    | perform _ _ _ hperform => exact Run.composable_uncounted.perform module _ _ _ _ _ hperform
    | _ => rfl

/-- Each instruction that is executed is counted. -/
theorem ReachesIn.steps_eq (h : ReachesIn module limits count machine operations last) :
    last.state.steps = machine.state.steps + count := by
  induction h with
  | refl machine => rfl
  | step hstep _ ih =>
    rw [ih, steps_of_step hstep]
    exact Nat.add_right_comm _ 1 _

theorem ReachesIn.trans {first second third : Machine} {operations operations' : List Operation}
    {count count' : Nat} (h : ReachesIn module limits count first operations second)
    (h' : ReachesIn module limits count' second operations' third) :
    ReachesIn module limits (count + count') first (operations ++ operations') third := by
  induction h with
  | refl machine => simpa using h'
  | step hstep _ ih =>
    rw [List.append_assoc, Nat.add_right_comm]
    exact .step hstep (ih h')

/-- On its way a machine is somewhere after each number of instructions. -/
theorem ReachesIn.exists_after (h : ReachesIn module limits count machine operations last)
    (hlimit : limit ≤ count) : ∃ dispatched rest middle,
      ReachesIn module limits limit machine dispatched middle ∧
      ReachesIn module limits (count - limit) middle rest last ∧
      operations = dispatched ++ rest := by
  induction h generalizing limit with
  | refl machine =>
    obtain rfl := Nat.le_zero.mp hlimit
    exact ⟨[], [], machine, .refl machine, .refl machine, rfl⟩
  | step hstep hrest ih =>
    cases limit with
    | zero => exact ⟨[], _, _, .refl _, .step hstep hrest, rfl⟩
    | succ limit =>
      obtain ⟨dispatched, rest, middle, hmiddle, hlast, rfl⟩ := ih (Nat.le_of_succ_le_succ hlimit)
      rw [Nat.add_sub_add_right, ← List.append_assoc]
      exact ⟨_, rest, middle, .step hstep hmiddle, hlast, rfl⟩

theorem fetches_of_step {operation : Option Operation} {next : Machine}
    (h : step module limits frame callers state = .ok (operation, next)) :
    Fetches ⟨frame :: callers, state⟩ := by
  intro hrest
  rw [step, hrest] at h
  cases h

/-- Without a limit a run that never stops comes as far as any number of instructions. -/
theorem exists_reachesIn (hendless : ∀ operations last,
    Reaches module limits machine operations last → last.outcome? module limits = none)
    (count : Nat) : ∃ operations last, ReachesIn module limits count machine operations last ∧
      last.Fetches := by
  have hgoes : ∀ operations last, Reaches module limits machine operations last →
      ∃ frame callers state operation next, last = ⟨frame :: callers, state⟩ ∧
        step module limits frame callers state = .ok (operation, next) := by
    intro operations last hreaches
    have hnone := hendless operations last hreaches
    obtain ⟨_ | ⟨frame, callers⟩, state⟩ := last
    · cases hnone
    · rw [outcome?] at hnone
      split at hnone
      · cases hnone
      · next result hstep => exact ⟨frame, callers, state, result.1, result.2, rfl, hstep⟩
  induction count with
  | zero =>
    obtain ⟨frame, callers, state, operation, next, rfl, hstep⟩ := hgoes [] _ (.refl _)
    exact ⟨[], _, .refl _, fetches_of_step hstep⟩
  | succ count ih =>
    obtain ⟨operations, last, hreaches, -⟩ := ih
    obtain ⟨frame, callers, state, operation, next, rfl, hstep⟩ :=
      hgoes operations last (reaches_iff_reachesIn.mpr ⟨count, hreaches⟩)
    have hnext := hreaches.trans (.step hstep (.refl next))
    obtain ⟨_, _, _, _, _, rfl, hstep'⟩ :=
      hgoes _ _ (reaches_iff_reachesIn.mpr ⟨count + 1, hnext⟩)
    exact ⟨_, _, hnext, fetches_of_step hstep'⟩

end Machine

end QuantumIR
