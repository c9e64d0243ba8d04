import QuantumIR.Proofs.Reading.RoundTrip
import QuantumIR.Proofs.Written.Names

/-!
Types as they are written. The tokens of a type that is written are read as that type wherever they
stand, and reading stops right after them unless a star follows. So no two types are written alike.
-/

namespace QuantumIR.Ty

open Reading

/-- The text of a type is cut into its tokens. -/
theorem exists_printed (ty : Ty) :
    ∃ printed, Module.placeTokens (Lexeme.scan ty.text.toList) = .ok printed ∧
      printed.map PlacedToken.token = ty.tokens := by
  obtain ⟨printed, hscan, htokens⟩ := Lexeme.exists_placed (ty.spells.tokens 0)
  refine ⟨printed, ?_, htokens⟩
  rw [Lexeme.scan, hscan, Lexeme.placeTokens_map]

/-- Reading a type takes its tokens and changes nothing else. -/
theorem read_append {ty : Ty} (h : ty.Sized) {placed rest : List PlacedToken} (number : Nat)
    (hplaced : placed.map PlacedToken.token = ty.tokens) (hrest : ty.MayFollow (next? rest)) :
    Ty.read ⟨placed ++ rest, number⟩ = .ok (ty, ⟨rest, number⟩) := by
  obtain ⟨_, after, rfl, hread⟩ := takes_read_mayFollow h placed rest number hplaced hrest
  have hnumber : after = number := quiet_of_follows Bounded.follows_readTy _ _ _ hread
  rw [hread, hnumber]

/-- A row of tokens is that of one type at most. -/
theorem eq_of_tokens_eq {ty other : Ty} (h : ty.Sized) (hother : other.Sized)
    (htokens : other.tokens = ty.tokens) : other = ty := by
  obtain ⟨printed, -, hprinted⟩ := ty.exists_printed
  have hend : ∀ ty : Ty, ty.MayFollow (next? []) := fun ty => ⟨nofun, fun _ => nofun⟩
  have hread := read_append h 0 hprinted (hend ty)
  have hreadOther := read_append hother 0 (hprinted.trans htokens.symm) (hend other)
  exact congrArg Prod.fst (Except.ok.inj (hreadOther.symm.trans hread))

/-- Reading undoes writing, and it stops in the right place: in front of any tokens that do not go
on with the type. Types that are written alike are the same. -/
theorem read_text {ty : Ty} (h : ty.Sized) :
    (∃ printed, Module.placeTokens (Lexeme.scan ty.text.toList) = .ok printed ∧
      ∀ (placed rest : List PlacedToken) (number : Nat),
        placed.map PlacedToken.token = printed.map PlacedToken.token →
        ty.MayFollow (next? rest) →
        Ty.read ⟨placed ++ rest, number⟩ = .ok (ty, ⟨rest, number⟩)) ∧
    ∀ other : Ty, other.Sized → other.text = ty.text → other = ty := by
  obtain ⟨printed, hscan, hprinted⟩ := ty.exists_printed
  refine ⟨⟨printed, hscan, ?_⟩, ?_⟩
  · intro placed rest number hplaced hrest
    exact read_append h number (hplaced.trans hprinted) hrest
  · intro other hother htext
    obtain ⟨same, hsame, htokens⟩ := other.exists_printed
    rw [htext, hscan] at hsame
    obtain rfl := Except.ok.inj hsame
    exact eq_of_tokens_eq h hother (htokens.symm.trans hprinted)

/-- A pointer to arrays of arrays of pointers to a type whose name is quoted. -/
def nested : Ty := .pointer (.array 2 (.array 3 (.pointer (.named "a b"))))

/-- What stands after the nested type is no address space of it. -/
theorem read_nested :
    nested.text = "[2 x [3 x %\"a b\"*]]*" ∧ nested.Sized ∧
    ∃ printed, Module.placeTokens (Lexeme.scan nested.text.toList) = .ok printed ∧
      Ty.read ⟨printed ++ [⟨.word "addrspace", ⟨22, 31⟩⟩], 7⟩ =
        .ok (nested, ⟨[⟨.word "addrspace", ⟨22, 31⟩⟩], 7⟩) := by
  have hsized : nested.Sized := by decide
  obtain ⟨⟨printed, hscan, hread⟩, -⟩ := read_text hsized
  refine ⟨by decide +kernel, hsized, printed, hscan, hread printed _ 7 rfl ?_⟩
  exact ⟨by decide, fun hptr => nomatch hptr⟩

end QuantumIR.Ty
