import Mathlib
import QuantumIR.Reading.Basic

/-!
What reading gives. A step that reads from a row of tokens and gives something gives it with a
property, and leaves some of the last tokens of the row. Every step of reading is put together from
a few small ones, and what it gives follows from what they give.
-/

namespace QuantumIR.Reading

variable {α β σ : Type} {row : List PlacedToken} {result : α → Prop} {result' : β → Prop}

/-- Whatever a step gives while it reads from a row has a property. -/
def Gives (row : List PlacedToken) (step : Reading α) (result : α → Prop) : Prop :=
  ∀ state a after, state.rest <:+ row → step state = .ok (a, after) → result a ∧ after.rest <:+ row

theorem Gives.weaken {result₂ : α → Prop} {step : Reading α} (h : Gives row step result)
    (hresult : ∀ a, result a → result₂ a) : Gives row step result₂ := by
  intro state a after hrow hstep
  obtain ⟨ha, hafter⟩ := h state a after hrow hstep
  exact ⟨hresult a ha, hafter⟩

theorem Gives.pure {a : α} (h : result a) : Gives row (Pure.pure a) result := by
  intro state b after hrow hstep
  cases hstep
  exact ⟨h, hrow⟩

/-- Two steps that give something do so one after the other. -/
theorem ok_bind {step : Reading α} {next : α → Reading β} {state after : ReadState} {b : β}
    (h : (step >>= next) state = .ok (b, after)) :
    ∃ a middle, step state = .ok (a, middle) ∧ next a middle = .ok (b, after) := by
  change Except.bind (step state) (fun p => next p.1 p.2) = .ok (b, after) at h
  cases hfirst : step state with
  | error fault =>
    rw [hfirst] at h
    cases h
  | ok p =>
    rw [hfirst] at h
    exact ⟨p.1, p.2, rfl, h⟩

theorem Gives.bind {step : Reading α} {next : α → Reading β} (h : Gives row step result)
    (h' : ∀ a, result a → Gives row (next a) result') : Gives row (step >>= next) result' := by
  intro state b after hrow hstep
  obtain ⟨a, middle, hfirst, hnext⟩ := ok_bind hstep
  obtain ⟨ha, hmiddle⟩ := h state a middle hrow hfirst
  exact h' a ha middle b after hmiddle hnext

/-- What a step gives does not matter to the next one. -/
theorem Gives.skip {step : Reading α} {next : α → Reading β}
    (h : Gives row step fun _ => True) (h' : ∀ a, Gives row (next a) result') :
    Gives row (step >>= next) result' :=
  h.bind fun a _ => h' a

/-- After a step that gives nothing, nothing is read. -/
theorem Gives.stop {step : Reading α} {next : α → Reading β}
    (h : Gives row step fun _ => False) : Gives row (step >>= next) result' :=
  h.bind fun _ hfalse => hfalse.elim

/-- A step that gives nothing fails. -/
theorem ne_ok_of_gives {step : Reading α} {state after : ReadState} {a : α}
    (h : ∀ row, Gives row step fun _ => False) : step state ≠ .ok (a, after) :=
  fun hstep => (h state.rest state a after (List.suffix_refl _) hstep).1

theorem Gives.ite {c : Prop} [Decidable c] {step step' : Reading α}
    (h : c → Gives row step result) (h' : ¬c → Gives row step' result) :
    Gives row (if c then step else step') result := by
  split
  · next hc => exact h hc
  · next hc => exact h' hc

/-- A step that fails gives nothing. -/
theorem gives_failAt (place : Place) (cause : ParseCause) : Gives row (failAt place cause) result := by
  intro state a after _ hstep
  cases hstep

theorem gives_rest : Gives row rest fun left => left <:+ row := by
  intro state a after hrow hstep
  cases hstep
  exact ⟨hrow, hrow⟩

theorem gives_peek? : Gives row peek? fun _ => True :=
  gives_rest.bind fun _ _ => Gives.pure trivial

theorem gives_peekSecond? : Gives row peekSecond? fun _ => True :=
  gives_rest.bind fun _ _ => Gives.pure trivial

theorem gives_here : Gives row here fun _ => True :=
  gives_rest.bind fun _ _ => Gives.pure trivial

theorem gives_advance : Gives row advance fun _ => True := by
  intro state a after hrow hstep
  cases hstep
  exact ⟨trivial, (List.tail_suffix _).trans hrow⟩

theorem gives_unexpected (expected : Expected) : Gives row (unexpected expected) result := by
  apply gives_peek?.skip
  intro token?
  split
  · exact gives_here.skip fun _ => gives_failAt _ _
  · exact gives_here.skip fun _ => gives_failAt _ _

theorem gives_unsupportedAt (place : Place) (construct : Construct) :
    Gives row (unsupportedAt place construct) result :=
  gives_failAt _ _

theorem gives_unsupported (construct : Construct) : Gives row (unsupported construct) result :=
  gives_here.skip fun _ => gives_failAt _ _

theorem gives_isNext (token : Token) : Gives row (isNext token) fun _ => True :=
  gives_peek?.skip fun _ => Gives.pure trivial

theorem gives_takeIf (token : Token) : Gives row (takeIf token) fun _ => True := by
  apply (gives_isNext token).skip
  intro found
  apply Gives.ite
  · intro _
    exact gives_advance.skip fun _ => Gives.pure trivial
  · intro _
    exact Gives.pure trivial

theorem gives_expect (token : Token) : Gives row (expect token) fun _ => True := by
  apply (gives_takeIf token).skip
  intro taken
  apply Gives.ite
  · intro _
    exact gives_unexpected _
  · intro _
    exact Gives.pure trivial

theorem gives_integer : Gives row integer fun _ => True := by
  apply gives_peek?.skip
  intro token?
  split
  · exact gives_advance.skip fun _ => Gives.pure trivial
  · exact gives_unexpected _

theorem gives_stringLiteral : Gives row stringLiteral fun _ => True := by
  apply gives_peek?.skip
  intro token?
  split
  · exact gives_advance.skip fun _ => Gives.pure trivial
  · exact gives_unexpected _

theorem gives_localName : Gives row localName fun _ => True := by
  apply gives_peek?.skip
  intro token?
  split
  · exact gives_advance.skip fun _ => Gives.pure trivial
  · exact gives_unexpected _

theorem gives_globalName : Gives row globalName fun _ => True := by
  apply gives_peek?.skip
  intro token?
  split
  · exact gives_advance.skip fun _ => Gives.pure trivial
  · exact gives_unexpected _

theorem gives_skipInteger : Gives row skipInteger fun _ => True := by
  apply gives_peek?.skip
  intro token?
  split
  · exact gives_advance
  · exact Gives.pure trivial

theorem gives_skipWords (accept : String → Bool) : Gives row (skipWords accept) fun _ => True := by
  intro state a after hrow hstep
  cases hstep
  exact ⟨trivial, (List.dropWhile_suffix _).trans hrow⟩

theorem suffix_of_afterParens {depth : Nat} {tokens left : List PlacedToken}
    (h : afterParens depth tokens = some left) : left <:+ tokens := by
  induction tokens generalizing depth with
  | nil => exact absurd h (Option.some_ne_none left).symm
  | cons first others ih =>
    have hothers : others <:+ first :: others := List.suffix_cons first others
    rw [afterParens.eq_def] at h
    simp only at h
    split at h
    · exact (ih h).trans hothers
    · split at h
      · split at h
        · cases h
          exact hothers
        · cases h
          exact hothers
        · exact (ih h).trans hothers
      · exact (ih h).trans hothers

theorem gives_skipToParen : Gives row skipToParen fun _ => True := by
  intro state a after hrow hstep
  rw [skipToParen] at hstep
  split at hstep
  · next left hleft =>
    cases hstep
    exact ⟨trivial, (suffix_of_afterParens hleft).trans hrow⟩
  · cases hstep

theorem gives_freshNumber : Gives row freshNumber fun _ => True := by
  intro state a after hrow hstep
  cases hstep
  exact ⟨trivial, hrow⟩

theorem gives_restartNumbers : Gives row restartNumbers fun _ => True := by
  intro state a after hrow hstep
  cases hstep
  exact ⟨trivial, hrow⟩

theorem gives_observe (name : String) : Gives row (observe name) fun _ => True := by
  intro state a after hrow hstep
  rw [observe] at hstep
  split at hstep
  · cases hstep
    exact ⟨trivial, hrow⟩
  · cases hstep
    exact ⟨trivial, hrow⟩

/-- What a repeated step keeps about what is read so far, up to what it ends with. -/
def Keeps (keeps : σ → Prop) (result : α → Prop) : σ ⊕ α → Prop
  | .inl s => keeps s
  | .inr a => result a

/-- A repetition gives what its step ends with. -/
theorem Gives.loop {expected : Expected} {step : σ → Reading (σ ⊕ α)} (keeps : σ → Prop)
    (h : ∀ s, keeps s → Gives row (step s) (Keeps keeps result)) {s : σ} (hs : keeps s) :
    Gives row (Reading.loop expected step s) result := by
  intro state a after hrow hloop
  induction hn : state.rest.length using Nat.strong_induction_on generalizing s state with
  | _ n ih =>
    rw [Reading.loop] at hloop
    split at hloop
    · cases hloop
    · next b middle hstep =>
      cases hloop
      exact h s hs state _ _ hrow hstep
    · next s' middle hstep =>
      obtain ⟨hs', hmiddle⟩ := h s hs state _ _ hrow hstep
      split at hloop
      · next hlt => exact ih _ (hn ▸ hlt) hs' middle hmiddle hloop rfl
      · exact gives_unexpected expected middle a after hmiddle hloop

/-- A repetition ends with its first turn or goes on after it. -/
theorem cases_of_loop {expected : Expected} {step : σ → Reading (σ ⊕ α)} {s : σ} {a : α}
    {state after : ReadState} (h : Reading.loop expected step s state = .ok (a, after)) :
    step s state = .ok (.inr a, after) ∨ ∃ s' middle, step s state = .ok (.inl s', middle) ∧
      Reading.loop expected step s' middle = .ok (a, after) := by
  rw [Reading.loop] at h
  split at h
  · cases h
  · next b middle hstep =>
    cases h
    exact .inl hstep
  · next s' middle hstep =>
    split at h
    · exact .inr ⟨s', middle, hstep, h⟩
    · exact absurd h (ne_ok_of_gives fun _ => gives_unexpected expected)

/-- Items between commas are given one by one. -/
theorem gives_commaSeparated {expected : Expected} {item : Reading α}
    (h : Gives row item result) :
    Gives row (commaSeparated expected item) fun items => ∀ a ∈ items, result a := by
  refine Gives.loop (fun items => ∀ a ∈ items, result a) ?_ (fun a ha => absurd ha (by simp))
  intro items hitems
  apply h.bind
  intro a ha
  have hall : ∀ b ∈ items ++ [a], result b :=
    List.forall_mem_append.mpr ⟨hitems, List.forall_mem_singleton.mpr ha⟩
  apply (gives_takeIf _).skip
  intro more
  apply Gives.ite
  · intro _
    exact Gives.pure hall
  · intro _
    exact Gives.pure hall

theorem gives_parenthesized {item : Reading α} (h : Gives row item result) :
    Gives row (parenthesized item) fun items => ∀ a ∈ items, result a := by
  apply (gives_expect _).skip
  intro _
  apply (gives_takeIf _).skip
  intro empty
  apply Gives.ite
  · intro _
    exact Gives.pure (by simp)
  · intro _
    apply (gives_commaSeparated h).bind
    intro items hitems
    exact (gives_expect _).skip fun _ => Gives.pure hitems

end QuantumIR.Reading
