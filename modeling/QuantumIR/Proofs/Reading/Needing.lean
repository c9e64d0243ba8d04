import QuantumIR.Proofs.Accepted.Giving
import QuantumIR.Proofs.Reading.Operands

/-!
What reading needs. A step may stand before the tokens of something that it cannot read back, such
as an array of a length that no literal has. Then it fails, so a step that does not fail tells that
what its tokens were written for can be read back.
-/

namespace QuantumIR.Reading

variable {α β σ ι : Type} {tokens tokens' : List Token} {need need' : Prop} {result : α → Prop}
  {follow : Option Token → Prop}

/-- A step that stands before the given tokens gives something only if a condition holds. -/
def Needs (step : Reading α) (tokens : List Token) (need : Prop) : Prop :=
  ∀ (placed rest : List PlacedToken) (n : Nat) (a : α) (after : ReadState),
    placed.map PlacedToken.token = tokens → step ⟨placed ++ rest, n⟩ = .ok (a, after) → need

theorem Needs.of {step : Reading α} (h : need) : Needs step tokens need :=
  fun _ _ _ _ _ _ _ => h

theorem Needs.mono {step : Reading α} (h : Needs step tokens need) (hneed : need → need') :
    Needs step tokens need' :=
  fun placed rest n a after hplaced hstep => hneed (h placed rest n a after hplaced hstep)

/-- A step that gives nothing needs anything. -/
theorem Needs.fails {step : Reading α} (h : ∀ row, Gives row step fun _ => False) :
    Needs step tokens need :=
  fun _ _ _ _ _ _ hstep => absurd hstep (ne_ok_of_gives h)

/-- What the first of two steps needs, both need. -/
theorem Needs.first {step : Reading α} {next : α → Reading β} (h : Needs step tokens need) :
    Needs (step >>= next) (tokens ++ tokens') need := by
  intro placed rest n b after hplaced hstep
  obtain ⟨front, back, rfl, hfront, -⟩ := List.map_eq_append_iff.mp hplaced
  rw [List.append_assoc] at hstep
  obtain ⟨a, middle, hfirst, -⟩ := ok_bind hstep
  exact h front (back ++ rest) n a middle hfront hfirst

/-- The tokens may all be those of the first step. -/
theorem Needs.bind {step : Reading α} {next : α → Reading β} (h : Needs step tokens need) :
    Needs (step >>= next) tokens need := by
  rw [← List.append_nil tokens]
  exact h.first

/-- What the second of two steps needs, both need if the first one takes its tokens. -/
theorem Takes.needs {step : Reading α} {next : α → Reading β} (h : Takes step tokens result follow)
    (h' : ∀ a, result a → Needs (next a) tokens' need)
    (hlead : ∀ token?, follow (lead tokens' token?)) :
    Needs (step >>= next) (tokens ++ tokens') need := by
  intro placed rest n b after hplaced hstep
  obtain ⟨front, back, rfl, hfront, hback⟩ := List.map_eq_append_iff.mp hplaced
  have hfollow : follow ((back ++ rest).head?.map PlacedToken.token) := by
    rw [head?_append_placed hback]
    exact hlead _
  obtain ⟨a, n', ha, hfirst⟩ := h front (back ++ rest) n hfront hfollow
  rw [List.append_assoc] at hstep
  obtain ⟨a', middle, hfirst', hnext⟩ := ok_bind hstep
  rw [hfirst] at hfirst'
  cases hfirst'
  exact h' a ha back rest n' b after hback hnext

theorem Takes.needsOne {step : Reading α} {next : α → Reading β} {token : Token}
    (h : Takes step [token] result follow) (h' : ∀ a, result a → Needs (next a) tokens need)
    (hlead : ∀ token?, follow (lead tokens token?)) :
    Needs (step >>= next) (token :: tokens) need :=
  h.needs h' hlead

/-- The second of two steps is done if the first one takes its tokens, which it does if it has what
it needs. -/
theorem Needs.andThen {step : Reading α} {next : α → Reading β} (h : Needs step tokens need)
    (htakes : need → Takes step tokens result follow)
    (h' : need → ∀ a, result a → Needs (next a) tokens' need')
    (hlead : ∀ token?, follow (lead tokens' token?)) :
    Needs (step >>= next) (tokens ++ tokens') (need ∧ need') := by
  intro placed rest n b after hplaced hstep
  have hneed : need := h.first placed rest n b after hplaced hstep
  exact ⟨hneed, (htakes hneed).needs (h' hneed) hlead placed rest n b after hplaced hstep⟩

/-- A step that takes nothing. -/
theorem Takes.lookNeeds {step : Reading α} {next : α → Reading β} (h : Takes step [] result follow)
    (h' : ∀ a, result a → Needs (next a) tokens need)
    (hlead : ∀ token?, follow (lead tokens token?)) : Needs (step >>= next) tokens need :=
  h.needs h' hlead

theorem Needs.here {next : Place → Reading β} (h : ∀ place, Needs (next place) tokens need) :
    Needs (Reading.here >>= next) tokens need :=
  fun placed rest n b after hplaced hstep => h _ placed rest n b after hplaced hstep

theorem Needs.peek? {next : Option Token → Reading β}
    (h : ∀ token?, Needs (next (lead tokens token?)) tokens need) :
    Needs (Reading.peek? >>= next) tokens need := by
  intro placed rest n b after hplaced hstep
  refine h (rest.head?.map PlacedToken.token) placed rest n b after hplaced ?_
  rw [← head?_append_placed hplaced]
  exact hstep

theorem Needs.peek?_cons {token : Token} {next : Option Token → Reading β}
    (h : Needs (next (some token)) (token :: tokens) need) :
    Needs (Reading.peek? >>= next) (token :: tokens) need :=
  Needs.peek? fun _ => h

theorem Needs.advance {token : Token} {next : Unit → Reading β} (h : Needs (next ()) tokens need) :
    Needs (Reading.advance >>= next) (token :: tokens) need := by
  intro placed rest n b after hplaced hstep
  obtain ⟨first, others, rfl, -, hothers⟩ := List.map_eq_cons_iff.mp hplaced
  exact h others rest n b after hothers hstep

theorem Needs.expect {token : Token} {next : Unit → Reading β} (h : Needs (next ()) tokens need) :
    Needs (Reading.expect token >>= next) (token :: tokens) need :=
  (takes_expect token).needs (fun _ _ => h) fun _ => trivial

theorem Needs.takeIf {token : Token} {next : Bool → Reading β} (h : Needs (next true) tokens need) :
    Needs (Reading.takeIf token >>= next) (token :: tokens) need := by
  have htake : Takes (Reading.takeIf token) [token] (· = true) Free := by
    have hpure : Takes (Reading.takeIf token >>= pure) [token] (· = true) Free :=
      Takes.takeIf (Takes.pure rfl)
    rwa [bind_pure] at hpure
  refine htake.needs ?_ fun _ => trivial
  rintro _ rfl
  exact h

theorem Needs.takeIf_ne {token : Token} {next : Bool → Reading β}
    (h : Needs (next false) tokens need) (hlead : ∀ token?, lead tokens token? ≠ some token) :
    Needs (Reading.takeIf token >>= next) tokens need := by
  refine (takes_takeIf_ne token).lookNeeds ?_ hlead
  rintro _ rfl
  exact h

theorem Needs.isNext_ne {token : Token} {next : Bool → Reading β}
    (h : Needs (next false) tokens need) (hlead : ∀ token?, lead tokens token? ≠ some token) :
    Needs (Reading.isNext token >>= next) tokens need := by
  refine (takes_isNext_ne token).lookNeeds ?_ hlead
  rintro _ rfl
  exact h

theorem Needs.otherwise {c : Prop} [Decidable c] {step step' : Reading α} (hc : ¬c)
    (h : Needs step' tokens need) : Needs (if c then step else step') tokens need := by
  rw [if_neg hc]
  exact h

theorem Needs.provided {c : Prop} [Decidable c] {step step' : Reading α} (hc : c)
    (h : Needs step tokens need) : Needs (if c then step else step') tokens need := by
  rw [if_pos hc]
  exact h

section Loops

variable {expected : Expected} {step : σ → Reading (σ ⊕ α)} {s : σ} {reached : σ → Prop}

/-- A repetition needs what its first turn needs. -/
theorem Needs.loop (h : Needs (step s) tokens need) :
    Needs (loop expected step s) (tokens ++ tokens') need := by
  intro placed rest n a after hplaced hloop
  obtain ⟨front, back, rfl, hfront, -⟩ := List.map_eq_append_iff.mp hplaced
  rw [List.append_assoc] at hloop
  rcases cases_of_loop hloop with hlast | ⟨next, middle, hfirst, -⟩
  · exact h front (back ++ rest) n _ _ hfront hlast
  · exact h front (back ++ rest) n _ _ hfront hfirst

/-- A repetition needs what is needed from a state on that it comes to. -/
theorem Passes.needsThen {next : α → Reading β} (h : Passes expected step s tokens reached follow)
    (h' : ∀ s', reached s' → Needs (Reading.loop expected step s' >>= next) tokens' need)
    (hlead : ∀ token?, follow (lead tokens' token?)) :
    Needs (Reading.loop expected step s >>= next) (tokens ++ tokens') need := by
  intro placed rest n b after hplaced hstep
  obtain ⟨front, back, rfl, hfront, hback⟩ := List.map_eq_append_iff.mp hplaced
  have hfollow : follow ((back ++ rest).head?.map PlacedToken.token) := by
    rw [head?_append_placed hback]
    exact hlead _
  obtain ⟨s', n', hs', hsame⟩ := h front (back ++ rest) n hfront hfollow
  rw [List.append_assoc] at hstep
  change Except.bind (Reading.loop expected step s ⟨front ++ (back ++ rest), n⟩) _ = _ at hstep
  rw [hsame] at hstep
  exact h' s' hs' back rest n' b after hback hstep

theorem Passes.needs (h : Passes expected step s tokens reached follow)
    (h' : ∀ s', reached s' → Needs (Reading.loop expected step s') tokens' need)
    (hlead : ∀ token?, follow (lead tokens' token?)) :
    Needs (Reading.loop expected step s) (tokens ++ tokens') need := by
  have hthen : Needs (Reading.loop expected step s >>= pure) (tokens ++ tokens') need := by
    refine h.needsThen (fun s' hs' => ?_) hlead
    rw [bind_pure]
    exact h' s' hs'
  rwa [bind_pure] at hthen

/-- A repetition that reads the items of a list needs what each of them needs. -/
theorem needs_flatMap {items : List ι} {write : ι → List Token} {need : ι → Prop}
    (h : ∀ a ∈ items, ∀ s, Needs (step s) (write a) (need a))
    (htakes : ∀ a ∈ items.dropLast, need a → ∀ s,
      Takes (step s) (write a) (fun next => ∃ s', next = .inl s' ∧ True) follow)
    (hlead : ∀ a ∈ items, ∀ token?, write a ≠ [] ∧ follow (lead (write a) token?)) (s : σ) :
    Needs (loop expected step s) (items.flatMap write ++ tokens) (∀ a ∈ items, need a) := by
  induction items generalizing s with
  | nil => exact Needs.of fun _ hnil => absurd hnil List.not_mem_nil
  | cons a rest ih =>
    have hfirst : Needs (Reading.loop expected step s) ((a :: rest).flatMap write ++ tokens)
        (need a) := by
      rw [List.flatMap_cons, List.append_assoc]
      exact (h a List.mem_cons_self s).loop
    cases rest with
    | nil => exact hfirst.mono fun ha => List.forall_mem_singleton.mpr ha
    | cons b others =>
      intro placed after n c state hplaced hloop
      have ha : need a := hfirst placed after n c state hplaced hloop
      have hrest := ih (fun c hc => h c (List.mem_cons_of_mem a hc))
        (fun c hc => htakes c (List.mem_cons_of_mem a hc))
        (fun c hc => hlead c (List.mem_cons_of_mem a hc))
      have hpasses : Passes expected step s (write a) (fun _ => True) follow :=
        (htakes a List.mem_cons_self ha s).passes (hlead a List.mem_cons_self none).1
      rw [List.flatMap_cons, List.append_assoc] at hplaced
      refine List.forall_mem_cons.mpr ⟨ha, ?_⟩
      refine hpasses.needs (fun s' _ => hrest s') ?_ placed after n c state hplaced hloop
      intro token?
      rw [List.flatMap_cons, List.append_assoc, lead_append]
      exact (hlead b (by simp) _).2

end Loops

section Lists

variable {item : Reading β} {write : α → List Token} {read : α → β} {items : List α}
  {need : α → Prop}

/-- Items between commas need what each of them needs. -/
theorem needs_commaSeparated {expected : Expected} (h : ∀ a ∈ items, Needs item (write a) (need a))
    (htakes : ∀ a ∈ items, need a → Takes item (write a) (· = read a) follow)
    (hcomma : follow (some (.mark .comma))) :
    Needs (commaSeparated expected item) (Token.commaSeparated (items.map write))
      (∀ a ∈ items, need a) := by
  suffices hloop : ∀ before, Needs (loop expected (readItem item) before)
      (Token.commaSeparated (items.map write)) (∀ a ∈ items, need a) from hloop []
  induction items with
  | nil => exact fun _ => Needs.of fun _ hnil => absurd hnil List.not_mem_nil
  | cons a rest ih =>
    intro before
    cases rest with
    | nil =>
      have hfirst : Needs (readItem item before) (write a) (need a) :=
        (h a List.mem_cons_self).bind
      rw [List.map_singleton, Token.commaSeparated, ← List.append_nil (write a)]
      exact hfirst.loop.mono fun ha => List.forall_mem_singleton.mpr ha
    | cons b others =>
      have htokens : Token.commaSeparated ((a :: b :: others).map write) =
          (write a ++ [.mark .comma]) ++ Token.commaSeparated ((b :: others).map write) := by
        rw [List.map_cons, List.map_cons, Token.commaSeparated, List.append_assoc]
        · rfl
        · exact List.cons_ne_nil _ _
      rw [htokens]
      have hfirst : Needs (readItem item before) (write a ++ [.mark .comma]) (need a) :=
        (h a List.mem_cons_self).first
      have hrest := ih (fun c hc => h c (List.mem_cons_of_mem a hc))
        (fun c hc => htakes c (List.mem_cons_of_mem a hc))
      intro placed after n c state hplaced hloop
      have ha : need a := hfirst.loop placed after n c state hplaced hloop
      have hstep : Takes (readItem item before) (write a ++ [.mark .comma])
          (fun next => ∃ items, next = .inl items ∧ True) Free := by
        refine (htakes a List.mem_cons_self ha).bind ?_ (fun _ _ => hcomma)
        rintro _ rfl
        exact Takes.takeIf (Takes.provided rfl (Takes.pure ⟨_, rfl, trivial⟩))
      have hpasses : Passes expected (readItem item) before (write a ++ [.mark .comma])
          (fun _ => True) Free := hstep.passes (by simp)
      exact List.forall_mem_cons.mpr ⟨ha, hpasses.needs (fun items _ => hrest items)
        (fun _ => trivial) placed after n c state hplaced hloop⟩

/-- Items in parentheses need what each of them needs. -/
theorem needs_parenthesized (h : ∀ a ∈ items, Needs item (write a) (need a))
    (htakes : ∀ a ∈ items, need a → Takes item (write a) (· = read a) follow)
    (hcomma : follow (some (.mark .comma)))
    (hlead : ∀ a ∈ items, ∀ next, lead (write a) next ≠ some (.mark .rightParen)) :
    Needs (parenthesized item)
      (.mark .leftParen :: (Token.commaSeparated (items.map write) ++ [.mark .rightParen]))
      (∀ a ∈ items, need a) := by
  refine Needs.expect ?_
  cases items with
  | nil => exact Needs.of fun _ hnil => absurd hnil List.not_mem_nil
  | cons a rest =>
    refine Needs.takeIf_ne (Needs.otherwise Bool.false_ne_true ?_) ?_
    · exact (needs_commaSeparated h htakes hcomma).first
    · intro next
      obtain ⟨others, hothers⟩ : ∃ others,
          Token.commaSeparated ((a :: rest).map write) = write a ++ others := by
        cases rest with
        | nil => exact ⟨[], (List.append_nil _).symm⟩
        | cons b more => exact ⟨_, rfl⟩
      rw [hothers, List.append_assoc, lead_append]
      exact hlead a List.mem_cons_self _

end Lists

end QuantumIR.Reading
