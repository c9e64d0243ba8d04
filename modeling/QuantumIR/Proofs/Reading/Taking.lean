import Mathlib
import QuantumIR.Reading.Basic

/-!
Reading steps that take given tokens. What a step gives depends on the tokens it takes and on
nothing else: not on the places of the tokens, not on the numbers for unnamed things, and of what
follows only on the first token. Steps are put together as the monad puts them together.
-/

namespace QuantumIR

namespace Reading

variable {α β σ : Type} {tokens tokens' : List Token} {result : α → Prop} {result' : β → Prop}
  {follow follow' : Option Token → Prop}

/-- A step takes exactly the given tokens wherever they stand, provided that the token after them
is one that may follow. -/
def Takes (step : Reading α) (tokens : List Token) (result : α → Prop)
    (follow : Option Token → Prop) : Prop :=
  ∀ (placed rest : List PlacedToken) (n : Nat), placed.map PlacedToken.token = tokens →
    follow (rest.head?.map PlacedToken.token) →
    ∃ a n', result a ∧ step ⟨placed ++ rest, n⟩ = .ok (a, ⟨rest, n'⟩)

/-- Anything may follow. -/
def Free (_next : Option Token) : Prop := True

/-- The next token is a given one. -/
def IsNext (token : Token) (next : Option Token) : Prop := next = some token

/-- What comes first if some tokens stand before the next one. -/
def lead (tokens : List Token) (next : Option Token) : Option Token := tokens.head?.or next

theorem lead_nil (next : Option Token) : lead [] next = next := rfl

theorem lead_cons (token : Token) (tokens : List Token) (next : Option Token) :
    lead (token :: tokens) next = some token := rfl

theorem lead_append (tokens tokens' : List Token) (next : Option Token) :
    lead (tokens ++ tokens') next = lead tokens (lead tokens' next) := by
  rw [lead, lead, lead, List.head?_append, Option.or_assoc]

/-- What comes first is none of the tokens that a test refuses. -/
theorem lead_ne {opens : Token → Bool} {token : Token} {next : Option Token}
    (hlead : ∃ first, lead tokens next = some first ∧ opens first) (h : opens token = false) :
    lead tokens next ≠ some token := by
  obtain ⟨first, hfirst, hopens⟩ := hlead
  rw [hfirst]
  rintro heq
  rw [Option.some.inj heq, h] at hopens
  exact Bool.false_ne_true hopens

theorem head?_append_placed {placed rest : List PlacedToken}
    (h : placed.map PlacedToken.token = tokens) :
    (placed ++ rest).head?.map PlacedToken.token =
      lead tokens (rest.head?.map PlacedToken.token) := by
  rw [← h, lead, List.head?_append, List.head?_map]
  cases placed <;> rfl

theorem Takes.weaken {step : Reading α} {result₂ : α → Prop} (h : Takes step tokens result follow)
    (hresult : ∀ a, result a → result₂ a) (hfollow : ∀ next, follow' next → follow next) :
    Takes step tokens result₂ follow' := by
  intro placed rest n hplaced hnext
  obtain ⟨a, n', ha, hstep⟩ := h placed rest n hplaced (hfollow _ hnext)
  exact ⟨a, n', hresult a ha, hstep⟩

/-- A step may be followed by less than it allows. -/
theorem Takes.before {step : Reading α} (h : Takes step tokens result follow)
    (hfollow : ∀ next, follow' next → follow next) : Takes step tokens result follow' :=
  h.weaken (fun _ ha => ha) hfollow

theorem Takes.pure {a : α} (h : result a) : Takes (Pure.pure a) [] result follow := by
  intro placed rest n hplaced _
  rw [List.map_eq_nil_iff] at hplaced
  subst hplaced
  exact ⟨a, n, h, rfl⟩

/-- A step goes on where the one before it has stopped. -/
theorem Takes.bind {step : Reading α} {next : α → Reading β}
    (h : Takes step tokens result follow)
    (h' : ∀ a, result a → Takes (next a) tokens' result' follow')
    (hfollow : ∀ token?, follow' token? → follow (lead tokens' token?)) :
    Takes (step >>= next) (tokens ++ tokens') result' follow' := by
  intro placed rest n hplaced hnext
  obtain ⟨front, back, rfl, hfront, hback⟩ := List.map_eq_append_iff.mp hplaced
  have hlead : follow ((back ++ rest).head?.map PlacedToken.token) := by
    rw [head?_append_placed hback]
    exact hfollow _ hnext
  obtain ⟨a, n₁, ha, hstep⟩ := h front (back ++ rest) n hfront hlead
  obtain ⟨b, n₂, hb, hnextStep⟩ := h' a ha back rest n₁ hback hnext
  refine ⟨b, n₂, hb, ?_⟩
  rw [List.append_assoc]
  change Except.bind (step ⟨front ++ (back ++ rest), n⟩) _ = _
  rw [hstep]
  exact hnextStep

/-- A step after which anything may stand. -/
theorem Takes.andThen {step : Reading α} {next : α → Reading β}
    (h : Takes step tokens result Free)
    (h' : ∀ a, result a → Takes (next a) tokens' result' follow') :
    Takes (step >>= next) (tokens ++ tokens') result' follow' :=
  h.bind h' fun _ _ => trivial

/-- A step that takes all the tokens, before one that takes none. -/
theorem Takes.last {step : Reading α} {next : α → Reading β} (h : Takes step tokens result follow)
    (h' : ∀ a, result a → Takes (next a) [] result' follow')
    (hfollow : ∀ token?, follow' token? → follow token?) :
    Takes (step >>= next) tokens result' follow' := by
  rw [← List.append_nil tokens]
  exact h.bind h' hfollow

theorem Takes.bindOne {step : Reading α} {next : α → Reading β} {token : Token}
    (h : Takes step [token] result follow)
    (h' : ∀ a, result a → Takes (next a) tokens' result' follow')
    (hfollow : ∀ token?, follow' token? → follow (lead tokens' token?)) :
    Takes (step >>= next) (token :: tokens') result' follow' :=
  h.bind h' hfollow

/-- A step that looks at the next token and takes nothing. -/
theorem Takes.look {step : Reading α} {next : α → Reading β} (h : Takes step [] result follow)
    (h' : ∀ a, result a → Takes (next a) tokens' result' follow')
    (hfollow : ∀ token?, follow' token? → follow (lead tokens' token?)) :
    Takes (step >>= next) tokens' result' follow' :=
  h.bind h' hfollow

theorem Takes.otherwise {c : Prop} [Decidable c] {step step' : Reading α} (hc : ¬c)
    (h : Takes step' tokens result follow) :
    Takes (if c then step else step') tokens result follow := by
  rw [if_neg hc]
  exact h

theorem Takes.provided {c : Prop} [Decidable c] {step step' : Reading α} (hc : c)
    (h : Takes step tokens result follow) :
    Takes (if c then step else step') tokens result follow := by
  rw [if_pos hc]
  exact h

/-- The place of a token may be anything. -/
theorem Takes.here {next : Place → Reading β}
    (h : ∀ place, Takes (next place) tokens result' follow) :
    Takes (Reading.here >>= next) tokens result' follow := by
  intro placed rest n hplaced hnext
  exact h _ placed rest n hplaced hnext

/-- Looking at the next token. -/
theorem Takes.peek? {next : Option Token → Reading β}
    (h : ∀ token?, follow token? → Takes (next (lead tokens token?)) tokens result' (· = token?)) :
    Takes (Reading.peek? >>= next) tokens result' follow := by
  intro placed rest n hplaced hnext
  obtain ⟨b, n', hb, hstep⟩ := h _ hnext placed rest n hplaced rfl
  refine ⟨b, n', hb, ?_⟩
  rw [← hstep]
  change next ((placed ++ rest).head?.map PlacedToken.token) ⟨placed ++ rest, n⟩ = _
  rw [head?_append_placed hplaced]

/-- Looking at a token that is there. -/
theorem Takes.peek?_cons {token : Token} {next : Option Token → Reading β}
    (h : Takes (next (some token)) (token :: tokens) result' follow) :
    Takes (Reading.peek? >>= next) (token :: tokens) result' follow := by
  apply Takes.peek?
  intro token? htoken
  refine h.before ?_
  rintro _ rfl
  exact htoken

/-- Looking two tokens ahead at tokens that are there. -/
theorem Takes.peekSecond?_cons {first second : Token} {next : Option Token → Reading β}
    (h : Takes (next (some second)) (first :: second :: tokens) result' follow) :
    Takes (Reading.peekSecond? >>= next) (first :: second :: tokens) result' follow := by
  intro placed rest n hplaced hnext
  obtain ⟨b, n', hb, hstep⟩ := h placed rest n hplaced hnext
  refine ⟨b, n', hb, ?_⟩
  obtain ⟨p, others, rfl, rfl, hothers⟩ := List.map_eq_cons_iff.mp hplaced
  obtain ⟨q, others, rfl, rfl, hothers⟩ := List.map_eq_cons_iff.mp hothers
  exact hstep

/-- The token after the next one may be anything. -/
theorem Takes.peekSecond? {next : Option Token → Reading β}
    (h : ∀ second, Takes (next second) tokens result' follow) :
    Takes (Reading.peekSecond? >>= next) tokens result' follow := by
  intro placed rest n hplaced hnext
  exact h _ placed rest n hplaced hnext

theorem Takes.advance {token : Token} {next : Unit → Reading β}
    (h : Takes (next ()) tokens result' follow) :
    Takes (Reading.advance >>= next) (token :: tokens) result' follow := by
  intro placed rest n hplaced hnext
  obtain ⟨p, others, rfl, rfl, hothers⟩ := List.map_eq_cons_iff.mp hplaced
  exact h others rest n hothers hnext

/-- The next token is not a given one. -/
theorem takes_isNext_ne (token : Token) :
    Takes (isNext token) [] (· = false) (· ≠ some token) := by
  apply Takes.peek?
  intro token? hne
  exact Takes.pure (decide_eq_false hne)

theorem Takes.takeIf {token : Token} {next : Bool → Reading β}
    (h : Takes (next true) tokens result' follow) :
    Takes (Reading.takeIf token >>= next) (token :: tokens) result' follow := by
  have htake : Takes (Reading.takeIf token) [token] (· = true) Free := by
    have hnext : Takes (isNext token) [] (· = true) (IsNext token) := by
      apply Takes.peek?
      intro token? heq
      exact Takes.pure (decide_eq_true heq)
    refine hnext.look ?_ (fun _ _ => rfl)
    rintro _ rfl
    exact Takes.provided rfl (Takes.advance (Takes.pure rfl))
  refine htake.andThen ?_
  rintro _ rfl
  exact h

theorem takes_takeIf_ne (token : Token) :
    Takes (takeIf token) [] (· = false) (· ≠ some token) := by
  refine (takes_isNext_ne token).look ?_ (fun _ h => h)
  rintro _ rfl
  exact Takes.otherwise Bool.false_ne_true (Takes.pure rfl)

/-- A token that is not there is not taken. -/
theorem Takes.takeIf_ne {token : Token} {next : Bool → Reading β}
    (h : Takes (next false) tokens result' follow)
    (hfollow : ∀ token?, follow token? → lead tokens token? ≠ some token) :
    Takes (Reading.takeIf token >>= next) tokens result' follow := by
  refine (takes_takeIf_ne token).look ?_ hfollow
  rintro _ rfl
  exact h

theorem Takes.isNext_ne {token : Token} {next : Bool → Reading β}
    (h : Takes (next false) tokens result' follow)
    (hfollow : ∀ token?, follow token? → lead tokens token? ≠ some token) :
    Takes (Reading.isNext token >>= next) tokens result' follow := by
  refine (takes_isNext_ne token).look ?_ hfollow
  rintro _ rfl
  exact h

theorem Takes.expect {token : Token} {next : Unit → Reading β}
    (h : Takes (next ()) tokens result' follow) :
    Takes (Reading.expect token >>= next) (token :: tokens) result' follow := by
  have htake : Takes (Reading.expect token) [token] (fun _ => True) Free :=
    Takes.takeIf (Takes.otherwise Bool.false_ne_true (Takes.pure trivial))
  exact htake.andThen fun _ _ => h

/-- A step that is expected to take one token more and gives nothing. -/
theorem takes_expect (token : Token) : Takes (expect token) [token] (fun _ => True) Free :=
  Takes.takeIf (Takes.otherwise Bool.false_ne_true (Takes.pure trivial))

theorem takes_integer (n : Int64) : Takes integer [.integer n] (· = n) Free :=
  Takes.peek?_cons (Takes.advance (Takes.pure rfl))

theorem takes_stringLiteral (text : String) :
    Takes stringLiteral [.string text] (· = text) Free :=
  Takes.peek?_cons (Takes.advance (Takes.pure rfl))

theorem takes_localName (name : String) : Takes localName [.localName name] (· = name) Free :=
  Takes.peek?_cons (Takes.advance (Takes.pure rfl))

theorem takes_globalName (name : String) : Takes globalName [.globalName name] (· = name) Free :=
  Takes.peek?_cons (Takes.advance (Takes.pure rfl))

/-- Names that are numbers change only what later unnamed things are called. -/
theorem takes_observe (name : String) : Takes (observe name) [] (fun _ => True) Free := by
  intro placed rest n hplaced _
  rw [List.map_eq_nil_iff] at hplaced
  subst hplaced
  rw [observe]
  cases Text.count? name.toList with
  | none => exact ⟨(), n, trivial, rfl⟩
  | some number => exact ⟨(), max n (number + 1), trivial, rfl⟩

theorem takes_restartNumbers : Takes restartNumbers [] (fun _ => True) Free := by
  intro placed rest n hplaced _
  rw [List.map_eq_nil_iff] at hplaced
  subst hplaced
  exact ⟨(), 0, trivial, rfl⟩

/-- The next token is no plain word. -/
def NotWord (next : Option Token) : Prop := ∀ word, next ≠ some (.word word)

theorem isWord_eq_false {accept : String → Bool} {token : Token} (h : NotWord (some token)) :
    isWord accept token = false := by
  cases token with
  | word text => exact absurd rfl (h text)
  | _ => rfl

theorem takes_skipWords_ne (accept : String → Bool) :
    Takes (skipWords accept) [] (fun _ => True) NotWord := by
  intro placed rest n hplaced hnext
  rw [List.map_eq_nil_iff] at hplaced
  subst hplaced
  refine ⟨(), n, trivial, ?_⟩
  rw [List.nil_append, skipWords]
  cases rest with
  | nil => rfl
  | cons first others => rw [List.dropWhile_cons_of_neg (by simp [isWord_eq_false hnext])]

theorem takes_skipWords_one {word : String} {accept : String → Bool} (h : accept word) :
    Takes (skipWords accept) [.word word] (fun _ => True) NotWord := by
  intro placed rest n hplaced hnext
  obtain ⟨p, rfl, hp⟩ := List.map_eq_singleton_iff.mp hplaced
  have hdrop : (p :: rest).dropWhile (fun token => isWord accept token.token) =
      rest.dropWhile fun token => isWord accept token.token := by
    refine List.dropWhile_cons_of_pos ?_
    rw [hp]
    exact h
  obtain ⟨_, n', -, hrest⟩ := takes_skipWords_ne accept [] rest n rfl hnext
  refine ⟨(), n', trivial, ?_⟩
  rw [← hrest, skipWords, skipWords]
  simp only [List.singleton_append, List.nil_append, hdrop]

/-- A repetition that ends at once. -/
theorem Takes.loop_last {expected : Expected} {step : σ → Reading (σ ⊕ α)} {s : σ}
    (h : Takes (step s) tokens (fun next => ∃ a, next = .inr a ∧ result a) follow) :
    Takes (loop expected step s) tokens result follow := by
  intro placed rest n hplaced hnext
  obtain ⟨_, n', ⟨a, rfl, ha⟩, hstep⟩ := h placed rest n hplaced hnext
  refine ⟨a, n', ha, ?_⟩
  rw [loop, hstep]

/-- A repetition that takes some tokens and goes on. -/
theorem Takes.loop_step {expected : Expected} {step : σ → Reading (σ ⊕ α)} {s : σ}
    {next : α → Reading β} {going : σ → Prop} (hne : tokens ≠ [])
    (h : Takes (step s) tokens (fun after => ∃ s', after = .inl s' ∧ going s') follow)
    (h' : ∀ s', going s' → Takes (loop expected step s' >>= next) tokens' result' follow')
    (hfollow : ∀ token?, follow' token? → follow (lead tokens' token?)) :
    Takes (loop expected step s >>= next) (tokens ++ tokens') result' follow' := by
  intro placed rest n hplaced hnext
  obtain ⟨front, back, rfl, hfront, hback⟩ := List.map_eq_append_iff.mp hplaced
  have hlead : follow ((back ++ rest).head?.map PlacedToken.token) := by
    rw [head?_append_placed hback]
    exact hfollow _ hnext
  obtain ⟨_, n₁, ⟨s', rfl, hs'⟩, hstep⟩ := h front (back ++ rest) n hfront hlead
  obtain ⟨b, n₂, hb, hloop⟩ := h' s' hs' back rest n₁ hback hnext
  have hshorter : (back ++ rest).length < (front ++ (back ++ rest)).length := by
    have hfrontLength : front.length = tokens.length := by rw [← hfront, List.length_map]
    have := List.length_pos_iff.mpr hne
    simp only [List.length_append, hfrontLength]
    omega
  refine ⟨b, n₂, hb, ?_⟩
  rw [List.append_assoc]
  change Except.bind (loop expected step s ⟨front ++ (back ++ rest), n⟩) _ = _
  rw [loop, hstep]
  simp only [if_pos hshorter]
  exact hloop

/-- A repetition takes exactly the given tokens and then stands in a state of a given kind. -/
def Passes (expected : Expected) (step : σ → Reading (σ ⊕ α)) (s : σ) (tokens : List Token)
    (reached : σ → Prop) (follow : Option Token → Prop) : Prop :=
  ∀ (placed rest : List PlacedToken) (n : Nat), placed.map PlacedToken.token = tokens →
    follow (rest.head?.map PlacedToken.token) →
    ∃ s' n', reached s' ∧
      loop expected step s ⟨placed ++ rest, n⟩ = loop expected step s' ⟨rest, n'⟩

section Passes

variable {expected : Expected} {step : σ → Reading (σ ⊕ α)} {s : σ} {reached reached' : σ → Prop}

theorem Passes.nil (h : reached s) : Passes expected step s [] reached follow := by
  intro placed rest n hplaced _
  rw [List.map_eq_nil_iff] at hplaced
  subst hplaced
  exact ⟨s, n, h, rfl⟩

theorem Passes.append (h : Passes expected step s tokens reached follow)
    (h' : ∀ s', reached s' → Passes expected step s' tokens' reached' follow')
    (hfollow : ∀ token?, follow' token? → follow (lead tokens' token?)) :
    Passes expected step s (tokens ++ tokens') reached' follow' := by
  intro placed rest n hplaced hnext
  obtain ⟨front, back, rfl, hfront, hback⟩ := List.map_eq_append_iff.mp hplaced
  have hlead : follow ((back ++ rest).head?.map PlacedToken.token) := by
    rw [head?_append_placed hback]
    exact hfollow _ hnext
  obtain ⟨s₁, n₁, hs₁, hloop₁⟩ := h front (back ++ rest) n hfront hlead
  obtain ⟨s₂, n₂, hs₂, hloop₂⟩ := h' s₁ hs₁ back rest n₁ hback hnext
  refine ⟨s₂, n₂, hs₂, ?_⟩
  rw [List.append_assoc, hloop₁, hloop₂]

/-- One step of a repetition. -/
theorem Takes.passes (h : Takes (step s) tokens (fun after => ∃ s', after = .inl s' ∧ reached s')
    follow) (hne : tokens ≠ []) : Passes expected step s tokens reached follow := by
  intro placed rest n hplaced hnext
  obtain ⟨_, n', ⟨s', rfl, hs'⟩, hstep⟩ := h placed rest n hplaced hnext
  have hshorter : rest.length < (placed ++ rest).length := by
    have hlength : placed.length = tokens.length := by rw [← hplaced, List.length_map]
    have := List.length_pos_iff.mpr hne
    simp only [List.length_append, hlength]
    omega
  refine ⟨s', n', hs', ?_⟩
  rw [loop, hstep]
  simp only [if_pos hshorter]

/-- A step for each item of a list, where `holds` says what the state is after some of them. -/
theorem passes_flatMap {ι : Type} {items : List ι} {write : ι → List Token}
    (holds : List ι → σ → Prop) (hs : holds [] s)
    (hstep : ∀ before a after s', items = before ++ a :: after → holds before s' →
      Takes (step s') (write a) (fun next => ∃ s'', next = .inl s'' ∧ holds (before ++ [a]) s'')
        follow)
    (hlead : ∀ a next, write a ≠ [] ∧ follow (lead (write a) next)) :
    Passes expected step s (items.flatMap write) (holds items) follow := by
  suffices hrest : ∀ rest before s', items = before ++ rest → holds before s' →
      Passes expected step s' (rest.flatMap write) (holds items) follow from hrest items [] s rfl hs
  intro rest
  induction rest with
  | nil =>
    intro before s' hitems hs'
    rw [List.append_nil] at hitems
    subst hitems
    exact Passes.nil hs'
  | cons a rest ih =>
    intro before s' hitems hs'
    have hfirst := hstep before a rest s' hitems hs'
    rw [List.flatMap_cons]
    refine (hfirst.passes (hlead a none).1).append ?_ ?_
    · intro s'' hs''
      refine ih (before ++ [a]) s'' ?_ hs''
      rw [hitems, List.append_assoc]
      rfl
    · intro next hnext
      cases rest with
      | nil => exact hnext
      | cons b others =>
        rw [List.flatMap_cons, lead_append]
        exact (hlead b _).2

end Passes

end Reading

end QuantumIR
