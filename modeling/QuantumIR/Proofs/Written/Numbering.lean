import QuantumIR.Proofs.Accepted.Canonical
import QuantumIR.Proofs.Text.Numeral
import QuantumIR.Proofs.Written.Modules

/-!
Numbers for what has no name. The number for the next thing without a name is above every number
that has been given or read as a name before, so a name that is given is new. If no written name is
a number, the names that are given count up from 0.
-/

namespace QuantumIR

open Reading

namespace Numbered

variable {number number' : Nat} {sites : List Site}

/-- No name reads as the last number that there is, after which nothing can be counted. -/
def Countable (names : List String) : Prop :=
  ∀ name ∈ names, Text.count? name.toList ≠ some (2 ^ 64 - 1)

theorem lt_of_count? {text : List Char} {n : Nat} (h : Text.count? text = some n) : n < 2 ^ 64 := by
  unfold Text.count? at h
  obtain ⟨value, -, hvalue⟩ := Option.bind_eq_some_iff.mp h
  split at hvalue
  · next hlt =>
    cases hvalue
    exact hlt
  · cases hvalue

theorem past_lt {name : String} (h : number < 2 ^ 64)
    (hname : Text.count? name.toList ≠ some (2 ^ 64 - 1)) : past number name < 2 ^ 64 := by
  rw [past]
  split
  · next n hcount =>
    have := lt_of_count? hcount
    have hne : n ≠ 2 ^ 64 - 1 := fun heq => hname (heq ▸ hcount)
    omega
  · exact h

theorem le_past (number : Nat) (name : String) : number ≤ past number name := by
  rw [past]
  split
  · exact Nat.le_max_left _ _
  · exact Nat.le_refl _

theorem succ_lt_of_countable (h : number < 2 ^ 64)
    (hname : Text.count? (toString number).toList ≠ some (2 ^ 64 - 1)) : number + 1 < 2 ^ 64 := by
  rw [Text.count?_toString h] at hname
  have hne : number ≠ 2 ^ 64 - 1 := fun heq => hname (congrArg some heq)
  omega

/-- A name that is given is a number from the first one on. -/
theorem exists_of_invented (h : Numbered number sites number')
    (hcountable : Countable (sites.map Site.name)) (hlt : number < 2 ^ 64) {site : Site}
    (hsite : site ∈ sites) (hinvented : site.isWritten = false) :
    ∃ n, number ≤ n ∧ Text.count? site.name.toList = some n := by
  induction h with
  | done => exact absurd hsite List.not_mem_nil
  | @written number _ name _ _ ih =>
    obtain ⟨hname, hothers⟩ := List.forall_mem_cons.mp hcountable
    rcases List.mem_cons.mp hsite with rfl | hsite
    · cases hinvented
    · obtain ⟨n, hle, hcount⟩ := ih hothers (past_lt hlt hname) hsite
      exact ⟨n, (le_past number name).trans hle, hcount⟩
  | @invented number _ _ _ ih =>
    obtain ⟨hname, hothers⟩ := List.forall_mem_cons.mp hcountable
    rcases List.mem_cons.mp hsite with rfl | hsite
    · exact ⟨number, Nat.le_refl _, Text.count?_toString hlt⟩
    · obtain ⟨n, hle, hcount⟩ := ih hothers (succ_lt_of_countable hlt hname) hsite
      exact ⟨n, Nat.le_of_succ_le hle, hcount⟩

/-- A name that is given differs from every name before it. -/
theorem fresh (h : Numbered number sites number') (hcountable : Countable (sites.map Site.name))
    (hlt : number < 2 ^ 64) :
    sites.Pairwise fun earlier later => later.isWritten = false → later.name ≠ earlier.name := by
  induction h with
  | done => exact .nil
  | @written number _ name _ hmore ih =>
    obtain ⟨hname, hothers⟩ := List.forall_mem_cons.mp hcountable
    have hpast := past_lt hlt hname
    refine .cons ?_ (ih hothers hpast)
    rintro later hlater hinvented rfl
    obtain ⟨n, hle, hcount⟩ := hmore.exists_of_invented hothers hpast hlater hinvented
    rw [past, hcount] at hle
    have := hle.trans' (Nat.le_max_right number (n + 1))
    omega
  | @invented number _ _ hmore ih =>
    obtain ⟨hname, hothers⟩ := List.forall_mem_cons.mp hcountable
    have hnext := succ_lt_of_countable hlt hname
    refine .cons ?_ (ih hothers hnext)
    intro later hlater hinvented heq
    obtain ⟨n, hle, hcount⟩ := hmore.exists_of_invented hothers hnext hlater hinvented
    rw [heq, Text.count?_toString hlt] at hcount
    cases hcount
    omega

end Numbered

/-- The names that are given, in the order of the text. -/
def Site.invented (sites : List Site) : List String :=
  (sites.filter fun site => !site.isWritten).map Site.name

theorem WrittenFunction.Resolves.names {groups : List (UInt32 × List Attribute)}
    {written : WrittenFunction} {function : Function} (h : written.Resolves groups function) :
    function.names = written.function.names := by
  obtain ⟨contents, -, rfl⟩ := h
  rfl

namespace Module

end Module

end QuantumIR
