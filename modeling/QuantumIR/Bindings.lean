/-!
Finite maps as lists of pairs. Setting a key again changes its value in place, so a
map holds one pair for each key that was ever set.
-/

namespace QuantumIR

/-- A finite map. -/
abbrev Bindings (α β : Type) := List (α × β)

namespace Bindings

variable {α β : Type} [DecidableEq α]

/-- The value of a key. -/
def get? (key : α) : Bindings α β → Option β
  | [] => none
  | (other, value) :: rest => if other = key then some value else get? key rest

/-- Gives a key a value in place of the one it had. -/
def set (key : α) (value : β) : Bindings α β → Bindings α β
  | [] => [(key, value)]
  | (other, old) :: rest =>
    if other = key then (key, value) :: rest else (other, old) :: set key value rest

theorem get?_set (key other : α) (value : β) (bindings : Bindings α β) :
    get? other (set key value bindings) =
      if key = other then some value else get? other bindings := by
  induction bindings with
  | nil => rfl
  | cons pair rest ih =>
    obtain ⟨k, v⟩ := pair
    by_cases hk : k = key
    · subst hk
      by_cases ho : k = other <;> simp [set, get?, ho]
    · by_cases ho : k = other
      · subst ho
        simp [set, get?, hk, Ne.symm hk]
      · simp [set, get?, hk, ho, ih]

end Bindings

end QuantumIR
