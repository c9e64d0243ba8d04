/-!
Iteration without a bound. A function that is iterated says after each turn how to go on, or with
which result to stop. A loop that goes on for ever has no result.
-/

namespace QuantumIR

variable {α β : Type}

/-- The result at which iteration stops. -/
inductive StopsWith (turn : α → α ⊕ β) : α → β → Prop
  | stop {a : α} {b : β} : turn a = .inr b → StopsWith turn a b
  | next {a a' : α} {b : β} : turn a = .inl a' → StopsWith turn a' b → StopsWith turn a b

namespace Iteration

variable (turn : α → α ⊕ β) (start : α)

/-- A place that a loop has come to: where it stops from there, it stops from its start. -/
abbrev Place := { a // ∀ b, StopsWith turn a b → StopsWith turn start b }

/-- A result that a loop has stopped with. -/
abbrev Result := { b // StopsWith turn start b }

/-- One turn of a loop. -/
def advance (place : Place turn start) : Place turn start ⊕ Result turn start :=
  match h : turn place.val with
  | .inl next => .inl ⟨next, fun b hb => place.property b (.next h hb)⟩
  | .inr result => .inr ⟨result, place.property result (.stop h)⟩

/-- The result of a loop together with the fact that the loop stops with it. -/
def loop (place : Place turn start) : Option (Option (Result turn start)) :=
  repeatM (fun place => some ((advance turn start place).map id some)) place

end Iteration

/-- Iterates a function up to its first result. -/
def iterate? (turn : α → α ⊕ β) (start : α) : Option β :=
  (Iteration.loop turn start ⟨start, fun _ h => h⟩).join.map Subtype.val

namespace Iteration

variable {turn : α → α ⊕ β} {start : α}

theorem loop_eq (place : Place turn start) : loop turn start place =
    match advance turn start place with
    | .inl next => loop turn start next
    | .inr result => some (some result) := by
  rw [loop, repeatM_eq_of_monadTail, repeatM.body]
  cases hadvance : advance turn start place with
  | inl next => rfl
  | inr result => rfl

theorem loop_of_stopsWith {a : α} {b : β} (h : StopsWith turn a b)
    (hplace : ∀ b, StopsWith turn a b → StopsWith turn start b) :
    loop turn start ⟨a, hplace⟩ = some (some ⟨b, hplace b h⟩) := by
  induction h with
  | stop hturn =>
    have hadvance : advance turn start ⟨_, hplace⟩ = .inr ⟨_, hplace _ (.stop hturn)⟩ := by
      rw [advance]
      split
      · next hother => cases hother.symm.trans hturn
      · next hother =>
        cases hother.symm.trans hturn
        rfl
    rw [loop_eq, hadvance]
  | next hturn hrest ih =>
    have hadvance : advance turn start ⟨_, hplace⟩ =
        .inl ⟨_, fun b hb => hplace b (.next hturn hb)⟩ := by
      rw [advance]
      split
      · next hother =>
        cases hother.symm.trans hturn
        rfl
      · next hother => cases hother.symm.trans hturn
    rw [loop_eq, hadvance]
    exact ih _

end Iteration

/-- The result of iteration is the one at which it stops. -/
theorem iterate?_eq_some_iff {turn : α → α ⊕ β} {start : α} {b : β} :
    iterate? turn start = some b ↔ StopsWith turn start b := by
  constructor
  · intro h
    obtain ⟨result, -, rfl⟩ := Option.map_eq_some_iff.mp h
    exact result.property
  · intro h
    rw [iterate?, Iteration.loop_of_stopsWith h]
    rfl

/-- Iteration stops after a turn or goes on as from the next place. -/
theorem iterate?_eq (turn : α → α ⊕ β) (start : α) :
    iterate? turn start = Sum.elim (iterate? turn) some (turn start) := by
  apply Option.ext
  intro b
  rw [iterate?_eq_some_iff]
  cases hturn : turn start with
  | inl next =>
    refine Iff.trans ?_ iterate?_eq_some_iff.symm
    constructor
    · rintro (hstop | ⟨hnext, h⟩)
      · cases hstop.symm.trans hturn
      · cases hnext.symm.trans hturn
        exact h
    · exact .next hturn
  | inr result =>
    constructor
    · rintro (hstop | ⟨hnext, h⟩)
      · cases hstop.symm.trans hturn
        rfl
      · cases hnext.symm.trans hturn
    · rintro ⟨⟩
      exact .stop hturn

end QuantumIR
