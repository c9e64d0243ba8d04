import QuantumIR.Proofs.Accepted.Keywords

/-!
Types are read by a loop over the openings of arrays, another one over their closings and none that
calls itself. The same reading as one that calls itself for the elements of arrays.
-/

namespace QuantumIR

namespace Reading

variable {α β σ τ : Type} {expected : Expected}

/-- A repetition over other states gives the same if each of its turns does. -/
theorem loop_map {step : σ → Reading (σ ⊕ α)} {step' : τ → Reading (τ ⊕ β)} {f : σ → τ} {g : α → β}
    (h : ∀ s, step' (f s) = Sum.map f g <$> step s) (s : σ) (state : ReadState) :
    loop expected step' (f s) state =
      (loop expected step s state).map fun p => (g p.1, p.2) := by
  induction hn : state.rest.length using Nat.strongRecOn generalizing s state with
  | ind n ih =>
    have hfirst : step' (f s) state = (step s state).map fun p => (Sum.map f g p.1, p.2) := by
      rw [h]
      change Except.bind (step s state) (fun p => .ok (Sum.map f g p.1, p.2)) = _
      cases step s state <;> rfl
    rw [loop, loop, hfirst]
    rcases step s state with fault | ⟨s' | a, after⟩
    · rfl
    · change (if after.rest.length < state.rest.length then loop expected step' (f s') after
          else unexpected expected after) =
        Except.map (fun p => (g p.1, p.2)) (if after.rest.length < state.rest.length then
          loop expected step s' after else unexpected expected after)
      split
      · next hlt => exact ih _ (hn ▸ hlt) s' after rfl
      · obtain ⟨rest, number⟩ := after
        cases rest <;> rfl
    · rfl

/-- A repetition whose turns take tokens does one turn and then the others. -/
theorem loop_eq {step : σ → Reading (σ ⊕ α)}
    (h : ∀ s state s' after, step s state = .ok (.inl s', after) →
      after.rest.length < state.rest.length) (s : σ) :
    loop expected step s = (step s >>= fun next => match next with
      | .inl s' => loop expected step s'
      | .inr a => pure a : Reading α) := by
  funext state
  change _ = Except.bind (step s state) fun p => _
  rw [loop]
  cases hstep : step s state with
  | error fault => rfl
  | ok outcome =>
    obtain ⟨next, after⟩ := outcome
    cases next with
    | inr a => rfl
    | inl s' => exact if_pos (h s state s' after hstep)

theorem unexpected_bind {next : α → Reading β} :
    (unexpected expected >>= next) = unexpected expected := by
  rw [unexpected, unexpected, bind_assoc]
  refine congrArg (peek? >>= ·) (funext fun token? => ?_)
  cases token? <;> rfl

theorem takeIf_bind {token : Token} {next : Bool → Reading α} :
    (takeIf token >>= next) = peek? >>= fun token? =>
      if token? = some token then advance >>= fun _ => next true else next false := by
  rw [takeIf, isNext, bind_assoc, bind_assoc]
  refine congrArg (peek? >>= ·) (funext fun token? => ?_)
  rw [pure_bind]
  by_cases h : token? = some token
  · rw [if_pos h, if_pos (decide_eq_true h), bind_assoc]
    rfl
  · rw [if_neg h, if_neg (by rw [decide_eq_true_iff]; exact h), pure_bind]

end Reading

namespace Ty

open Reading

theorem readOpening_append (lengths outer : List UInt64) :
    readOpening (lengths ++ outer) =
      Sum.map (· ++ outer) (· ++ outer) <$> readOpening lengths := by
  rw [readOpening, readOpening, map_bind]
  refine congrArg (takeIf (.mark .leftBracket) >>= ·) (funext fun taken => ?_)
  cases taken with
  | false => rfl
  | true =>
    rw [if_pos rfl, if_pos rfl, map_bind]
    refine congrArg (integer >>= ·) (funext fun length => ?_)
    dsimp only
    split <;> simp only [map_bind, map_pure] <;> rfl

theorem readArrayClosings_append (lengths outer : List UInt64) (ty : Ty) :
    readArrayClosings (lengths ++ outer) ty =
      readArrayClosings lengths ty >>= readArrayClosings outer := by
  induction lengths generalizing ty with
  | nil => rw [List.nil_append, readArrayClosings, pure_bind]
  | cons length lengths ih =>
    rw [List.cons_append, readArrayClosings, readArrayClosings, bind_assoc]
    simp only [bind_assoc, ih]

/-- The openings before an element type inside array types that are open already. -/
def readOpenings (outer : List UInt64) : Reading (List UInt64) := loop .ty readOpening outer

theorem readOpenings_eq (outer : List UInt64) :
    readOpenings outer = (· ++ outer) <$> readArrayOpenings := by
  funext state
  exact loop_map (f := (· ++ outer)) (fun lengths => readOpening_append lengths outer) [] state

/-- An opening that is read takes at least its bracket. -/
theorem readOpening_lt (openings : List UInt64) (state : ReadState) (openings' : List UInt64)
    (after : ReadState) (h : readOpening openings state = .ok (.inl openings', after)) :
    after.rest.length < state.rest.length := by
  obtain ⟨taken, middle, htake, h⟩ := ok_bind h
  cases taken with
  | false => cases h
  | true =>
    obtain ⟨first, hfirst, -⟩ := exists_of_takeIf_eq_true htake
    have hrest : Gives middle.rest (do
        let length ← integer
        if length < 0 then unexpected .arrayLength
        expectKeyword .x
        return .inl (length.toUInt64 :: openings))
        fun _ : List UInt64 ⊕ List UInt64 => True := by
      apply gives_integer.skip
      intro length
      apply Gives.ite
      · intro _
        exact (gives_unexpected .arrayLength).stop
      · intro _
        exact (gives_expect _).skip fun _ => Gives.pure trivial
    have hle := (hrest _ _ _ (List.suffix_refl _) h).2.length_le
    rw [hfirst, List.length_cons]
    omega

/-- The elements of an array type are read as a type by itself. -/
theorem read_eq : Ty.read = (do
    if ← takeIf (.mark .leftBracket) then
      let length ← integer
      if length < 0 then unexpected .arrayLength
      expectKeyword .x
      let element ← Ty.read
      expectMark .rightBracket
      readStars (.array length.toUInt64 element)
    else readStars (← readBase)) := by
  have hwithin : ∀ outer, (readOpenings outer >>= fun openings => readBase >>= fun base =>
      readStars base >>= readArrayClosings openings) = Ty.read >>= readArrayClosings outer := by
    intro outer
    have hclosings : ∀ openings, readArrayClosings (openings ++ outer) =
        fun ty => readArrayClosings openings ty >>= readArrayClosings outer :=
      fun openings => funext fun ty => readArrayClosings_append openings outer ty
    rw [readOpenings_eq, Ty.read]
    simp only [map_eq_pure_bind, bind_assoc, pure_bind, hclosings]
  have hopenings : readArrayOpenings = readOpening [] >>= fun next => match next with
      | .inl openings => readOpenings openings
      | .inr openings => pure openings := by
    refine (loop_eq readOpening_lt []).trans ?_
    refine congrArg (readOpening [] >>= ·) (funext fun next => ?_)
    cases next <;> rfl
  -- Only the first of the two sides is taken apart.
  conv_lhs => rw [Ty.read, hopenings, readOpening]
  simp only [bind_assoc]
  refine congrArg (takeIf (.mark .leftBracket) >>= ·) (funext fun taken => ?_)
  cases taken with
  | false =>
    change (readBase >>= fun base => readStars base >>= fun ty => pure ty) = _
    simp only [bind_pure]
    rfl
  | true =>
    simp only [if_pos, bind_assoc]
    refine congrArg (integer >>= ·) (funext fun length => ?_)
    split
    · simp only [unexpected_bind]
    · simp only [bind_assoc, pure_bind, hwithin, readArrayClosings, bind_pure]

end Ty

end QuantumIR
