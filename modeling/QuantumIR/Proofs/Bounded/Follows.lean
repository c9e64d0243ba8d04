import QuantumIR.Proofs.Bounded.Steps

/-!
When a bounded reading follows a reading. Both start at the same token, and either both fail there
for the same reason at the same token, or both give something and stop at the same token. The turns
of a bounded reading are paid for in advance: a cursor has two turns for each token that is left and
some more, which are its credit. A token that is taken adds two to the credit, and a turn costs one
of it. A repetition that keeps its credit takes a token in each of its turns.
-/

namespace QuantumIR.Bounded

variable {α α' β β' σ τ : Type}

/-- A row of tokens in a text. What stands between two of its tokens can be cut out. -/
structure Page where
  placed : List PlacedToken
  canSlice : Nat → Nat → Bool
  slices : ∀ first last, first ≤ last → last < placed.length → canSlice first last

/-- A row of tokens in a text from which everything can be cut out. -/
def freePage (placed : List PlacedToken) : Page where
  placed := placed
  canSlice := fun _ _ => true
  slices := fun _ _ _ _ => rfl

namespace Page

def row (page : Page) : Row := ⟨page.placed.map PlacedToken.token, page.canSlice⟩

def token? (page : Page) (place : Nat) : Option Token := page.row.tokens[place]?

/-- The byte offset of a token. -/
def placeOf (page : Page) (place : Nat) : Place :=
  page.placed[place]?.map fun token => token.span.start

/-- What is left to a reading at a place. -/
def stateAt (page : Page) (place number : Nat) : ReadState := ⟨page.placed.drop place, number⟩

theorem length_tokens (page : Page) : page.row.tokens.length = page.placed.length :=
  List.length_map _

theorem head?_drop (page : Page) (place : Nat) :
    (page.placed.drop place).head?.map PlacedToken.token = page.token? place := by
  rw [List.head?_drop, token?, row, List.getElem?_map]

theorem lt_of_token? {page : Page} {place : Nat} {token : Token}
    (h : page.token? place = some token) : place < page.placed.length := by
  obtain ⟨hlt, _⟩ := List.getElem?_eq_some_iff.mp h
  rwa [length_tokens] at hlt

theorem token?_eq_none {page : Page} {place : Nat} :
    page.token? place = none ↔ page.placed.length ≤ place := by
  rw [token?, List.getElem?_eq_none_iff, length_tokens]

end Page

/-- A cursor stands in the row or at its end, and it has two turns for each token that is left and
so many more. -/
def Has (page : Page) (credit : Nat) (cursor : Cursor) : Prop :=
  cursor.place ≤ page.placed.length ∧
    2 * page.placed.length + credit ≤ cursor.turns + 2 * cursor.place

variable {page : Page} {cursor : Cursor} {number credit : Nat}

theorem Has.mono {credit' : Nat} (h : Has page credit cursor) (hle : credit' ≤ credit) :
    Has page credit' cursor :=
  ⟨h.1, by have := h.2; omega⟩

/-- A cursor with some credit has a turn left. -/
theorem Has.pos (h : Has page (credit + 1) cursor) : 0 < cursor.turns := by
  have := h.1
  have := h.2
  omega

theorem Has.spend (h : Has page (credit + 1) cursor) :
    Has page credit { cursor with turns := cursor.turns - 1 } := by
  have hpos := h.pos
  refine ⟨h.1, ?_⟩
  have := h.2
  simp only
  omega

theorem Has.advance {token : Token} (h : Has page credit cursor)
    (htoken : page.token? cursor.place = some token) :
    Has page (credit + 2) { cursor with place := cursor.place + 1 } := by
  refine ⟨Page.lt_of_token? htoken, ?_⟩
  have := h.2
  simp only
  omega

/-- What two readings come to that started at a cursor. What they give and where they stop is
related by `result`. They miss something at the end of the row only. -/
inductive Agree (page : Page) (start : Cursor) (result : α → Nat → β → Cursor → Prop) :
    Except Fault (α × ReadState) → Except Stop (β × Cursor) → Prop where
  | fault (place : Nat) (cause : ParseCause)
      (hend : ∀ expected, cause = .unexpectedEnd expected → page.placed.length ≤ place) :
      Agree page start result (.error ⟨page.placeOf place, cause⟩) (.error (.fault place cause))
  | gives {a : α} {number : Nat} {b : β} {cursor : Cursor} (hplace : start.place ≤ cursor.place)
      (hturns : cursor.turns ≤ start.turns) (h : result a number b cursor) :
      Agree page start result (.ok (a, page.stateAt cursor.place number)) (.ok (b, cursor))

/-- Readings that have come further from a later cursor on have come further from an earlier one. -/
theorem Agree.trans {start : Cursor} {result : α → Nat → β → Cursor → Prop}
    {outcome : Except Fault (α × ReadState)} {outcome' : Except Stop (β × Cursor)}
    (h : Agree page cursor result outcome outcome') (hplace : start.place ≤ cursor.place)
    (hturns : cursor.turns ≤ start.turns) : Agree page start result outcome outcome' := by
  cases h with
  | fault place cause hend => exact .fault place cause hend
  | gives hplace' hturns' h =>
    exact .gives (Nat.le_trans hplace hplace') (Nat.le_trans hturns' hturns) h

theorem Agree.exists_of_ok {start : Cursor} {result : α → Nat → β → Cursor → Prop}
    {outcome : Except Fault (α × ReadState)} {b : β}
    (h : Agree page start result outcome (.ok (b, cursor))) :
    ∃ a number, outcome = .ok (a, page.stateAt cursor.place number) ∧ result a number b cursor := by
  cases h with
  | @gives a number _ _ _ _ h => exact ⟨a, number, rfl, h⟩

/-- From a cursor on, a bounded reading does what a reading does. -/
def Follows (page : Page) (cursor : Cursor) (number : Nat) (step : Reading α) (bounded : Bounded β)
    (result : α → Nat → β → Cursor → Prop) : Prop :=
  Agree page cursor result (step (page.stateAt cursor.place number)) (bounded page.row cursor)

/-- Both readings give the same and leave the number for the next thing without a name as it is. -/
def Same (page : Page) (number credit : Nat) (a : α) (number' : Nat) (b : α) (cursor : Cursor) :
    Prop :=
  a = b ∧ number' = number ∧ Has page credit cursor

/-- The bounded reading also gives the number for the next thing without a name. -/
def Numbered (page : Page) (credit : Nat) (a : α) (number : Nat) (b : α × Nat) (cursor : Cursor) :
    Prop :=
  b = (a, number) ∧ Has page credit cursor

section Rules

variable {step : Reading α} {bounded : Bounded β} {next : α → Reading α'} {after : β → Bounded β'}
  {result : α → Nat → β → Cursor → Prop} {result' : α' → Nat → β' → Cursor → Prop}

theorem Follows.impLe {result₂ : α → Nat → β → Cursor → Prop}
    (h : Follows page cursor number step bounded result)
    (himp : ∀ a number' b cursor', cursor.place ≤ cursor'.place → result a number' b cursor' →
      result₂ a number' b cursor') :
    Follows page cursor number step bounded result₂ := by
  unfold Follows at h ⊢
  generalize step _ = outcome, bounded _ _ = outcome' at h ⊢
  cases h with
  | fault place cause hend => exact .fault place cause hend
  | gives hplace hturns hresult => exact .gives hplace hturns (himp _ _ _ _ hplace hresult)

theorem Follows.imp {result₂ : α → Nat → β → Cursor → Prop}
    (h : Follows page cursor number step bounded result)
    (himp : ∀ a number' b cursor', result a number' b cursor' → result₂ a number' b cursor') :
    Follows page cursor number step bounded result₂ :=
  h.impLe fun a number' b cursor' _ => himp a number' b cursor'

/-- Readings that give the same may have more credit than is needed. -/
theorem Follows.same {bounded : Bounded α} {credit' : Nat}
    (h : Follows page cursor number step bounded (Same page number credit'))
    (hle : credit ≤ credit') :
    Follows page cursor number step bounded (Same page number credit) :=
  h.imp fun _ _ _ _ ⟨heq, hnumber, hc⟩ => ⟨heq, hnumber, hc.mono hle⟩

theorem Follows.numbered {bounded : Bounded (α × Nat)} {credit' : Nat}
    (h : Follows page cursor number step bounded (Numbered page credit')) (hle : credit ≤ credit') :
    Follows page cursor number step bounded (Numbered page credit) :=
  h.imp fun _ _ _ _ ⟨heq, hc⟩ => ⟨heq, hc.mono hle⟩

theorem Follows.pure {a : α} {b : β} (h : result a number b cursor) :
    Follows page cursor number (Pure.pure a) (Pure.pure b) result :=
  .gives (Nat.le_refl _) (Nat.le_refl _) h

/-- One reading goes on where another one has stopped. -/
theorem Follows.bindLe (h : Follows page cursor number step bounded result)
    (h' : ∀ a number' b cursor', cursor.place ≤ cursor'.place → cursor'.turns ≤ cursor.turns →
      result a number' b cursor' → Follows page cursor' number' (next a) (after b) result') :
    Follows page cursor number (step >>= next) (bounded >>= after) result' := by
  change Agree page cursor result'
    (Except.bind (step (page.stateAt cursor.place number)) fun p => next p.1 p.2)
    (Except.bind (bounded page.row cursor) fun p => after p.1 page.row p.2)
  unfold Follows at h
  generalize step _ = outcome, bounded _ _ = outcome' at h ⊢
  cases h with
  | fault place cause hend => exact .fault place cause hend
  | @gives a number' b cursor' hplace hturns hresult =>
    exact (h' a number' b cursor' hplace hturns hresult).trans hplace hturns

theorem Follows.bind (h : Follows page cursor number step bounded result)
    (h' : ∀ a number' b cursor', result a number' b cursor' →
      Follows page cursor' number' (next a) (after b) result') :
    Follows page cursor number (step >>= next) (bounded >>= after) result' :=
  h.bindLe fun a number' b cursor' _ _ => h' a number' b cursor'

/-- After readings that fail nothing is read. -/
theorem Follows.stop (h : Follows page cursor number step bounded fun _ _ _ _ => False) :
    Follows page cursor number (step >>= next) (bounded >>= after) result' :=
  h.bind fun _ _ _ _ hfalse => hfalse.elim

/-- After readings that give the same. -/
theorem Follows.andThen {bounded : Bounded α} {after : α → Bounded β'}
    (h : Follows page cursor number step bounded (Same page number credit))
    (h' : ∀ a cursor', Has page credit cursor' →
      Follows page cursor' number (next a) (after a) result') :
    Follows page cursor number (step >>= next) (bounded >>= after) result' := by
  apply h.bind
  rintro a _ _ cursor' ⟨rfl, rfl, hcursor'⟩
  exact h' a cursor' hcursor'

/-- After a bounded reading that hands the number on. -/
theorem Follows.andThenNumbered {bounded : Bounded (α × Nat)} {after : α × Nat → Bounded β'}
    (h : Follows page cursor number step bounded (Numbered page credit))
    (h' : ∀ a number' cursor', Has page credit cursor' →
      Follows page cursor' number' (next a) (after (a, number')) result') :
    Follows page cursor number (step >>= next) (bounded >>= after) result' := by
  apply h.bind
  rintro a number' _ cursor' ⟨rfl, hcursor'⟩
  exact h' a number' cursor' hcursor'

theorem Follows.iteIff {c c' : Prop} [Decidable c] [Decidable c'] (hiff : c ↔ c')
    {step' : Reading α} {bounded' : Bounded β}
    (h : c → Follows page cursor number step bounded result)
    (h' : ¬c → Follows page cursor number step' bounded' result) :
    Follows page cursor number (if c then step else step') (if c' then bounded else bounded')
      result := by
  by_cases hc : c
  · rw [if_pos hc, if_pos (hiff.mp hc)]
    exact h hc
  · rw [if_neg hc, if_neg (mt hiff.mpr hc)]
    exact h' hc

theorem Follows.ite {c : Prop} [Decidable c] {step' : Reading α} {bounded' : Bounded β}
    (h : c → Follows page cursor number step bounded result)
    (h' : ¬c → Follows page cursor number step' bounded' result) :
    Follows page cursor number (if c then step else step') (if c then bounded else bounded')
      result :=
  Follows.iteIff Iff.rfl h h'

/-- Readings fail alike at a token, or at the end of the row if they miss something there. -/
theorem follows_failAt {place : Place} {place' : Nat} {cause : ParseCause}
    (h : place = page.placeOf place')
    (hend : ∀ expected, cause = .unexpectedEnd expected → page.placed.length ≤ place') :
    Follows page cursor number (Reading.failAt place cause) (failAt place' cause) result := by
  subst h
  exact .fault place' cause hend

/-- Only the reading asks for the place. -/
theorem Follows.hereKnown {next : Place → Reading α} {bounded : Bounded β}
    (h : Follows page cursor number (next (page.placeOf cursor.place)) bounded result) :
    Follows page cursor number (Reading.here >>= next) bounded result := by
  rw [Page.placeOf, ← List.head?_drop] at h
  exact h

theorem Follows.here {next : Place → Reading α} {after : Nat → Bounded β}
    (h : Follows page cursor number (next (page.placeOf cursor.place)) (after cursor.place)
      result) :
    Follows page cursor number (Reading.here >>= next) (Bounded.here >>= after) result :=
  Follows.hereKnown h

/-- Both readings see the same token. -/
theorem Follows.peek? {next : Option Token → Reading α} {after : Option Token → Bounded β}
    (h : ∀ token?, page.token? cursor.place = token? →
      Follows page cursor number (next token?) (after token?) result) :
    Follows page cursor number (Reading.peek? >>= next) (Bounded.peek? >>= after) result := by
  have hnext := h _ rfl
  unfold Follows at hnext ⊢
  rw [← Page.head?_drop] at hnext
  change Agree page cursor result _ (after (page.token? (cursor.place + 0)) page.row cursor)
  rw [Nat.add_zero, ← Page.head?_drop]
  exact hnext

/-- Only the reading looks, at a token that is known. -/
theorem Follows.peekKnown {token? : Option Token} {next : Option Token → Reading α}
    {bounded : Bounded β} (htoken : page.token? cursor.place = token?)
    (h : Follows page cursor number (next token?) bounded result) :
    Follows page cursor number (Reading.peek? >>= next) bounded result := by
  rw [← htoken, ← Page.head?_drop] at h
  exact h

theorem Follows.peekSecond? {next : Option Token → Reading α} {after : Option Token → Bounded β}
    (h : ∀ token?, page.token? (cursor.place + 1) = token? →
      Follows page cursor number (next token?) (after token?) result) :
    Follows page cursor number (Reading.peekSecond? >>= next) (Bounded.peekSecond? >>= after)
      result := by
  have hnext := h _ rfl
  unfold Follows at hnext ⊢
  change Agree page cursor result
    (next ((page.placed.drop cursor.place).tail.head?.map PlacedToken.token) _)
    (after (page.token? (cursor.place + 1)) page.row cursor)
  rw [List.tail_drop, Page.head?_drop]
  exact hnext

/-- Both readings take a token that is there and come to the next place. -/
theorem follows_advance_place {token : Token} (htoken : page.token? cursor.place = some token)
    (hc : Has page credit cursor) :
    Follows page cursor number Reading.advance advance fun a number' b cursor' =>
      cursor'.place = cursor.place + 1 ∧ Same page number (credit + 2) a number' b cursor' := by
  have hnot : ¬page.row.tokens.length ≤ cursor.place := by
    rw [page.length_tokens, Nat.not_le]
    exact Page.lt_of_token? htoken
  have hbounded : advance page.row cursor =
      .ok ((), { cursor with place := cursor.place + 1 }) := by
    rw [advance, if_neg hnot]
    rw [Page.token?] at htoken
    rw [htoken]
  have hstep : Reading.advance (page.stateAt cursor.place number) =
      .ok ((), page.stateAt (cursor.place + 1) number) := by
    rw [Reading.advance, Page.stateAt, Page.stateAt, List.tail_drop]
  unfold Follows
  rw [hbounded, hstep]
  have hplace : cursor.place ≤ ({ cursor with place := cursor.place + 1 } : Cursor).place :=
    Nat.le_succ _
  exact .gives hplace (Nat.le_refl _) ⟨rfl, rfl, rfl, hc.advance htoken⟩

theorem follows_advance {token : Token} (htoken : page.token? cursor.place = some token)
    (hc : Has page credit cursor) :
    Follows page cursor number Reading.advance advance (Same page number (credit + 2)) :=
  (follows_advance_place htoken hc).imp fun _ _ _ _ h => h.2

/-- At the end of the row nothing is taken. -/
theorem follows_advance_end (hend : page.token? cursor.place = none)
    (hc : Has page credit cursor) :
    Follows page cursor number Reading.advance advance (Same page number credit) := by
  have hle := Page.token?_eq_none.mp hend
  have hbounded : advance page.row cursor = .ok ((), cursor) := by
    rw [advance, if_pos (by rwa [page.length_tokens])]
  have hstep : Reading.advance (page.stateAt cursor.place number) =
      .ok ((), page.stateAt cursor.place number) := by
    rw [Reading.advance, Page.stateAt, List.drop_eq_nil_of_le hle]
    rfl
  unfold Follows
  rw [hbounded, hstep]
  exact .gives (Nat.le_refl _) (Nat.le_refl _) ⟨rfl, rfl, hc⟩

/-- Only the bounded reading asks for the place of the token taken last. -/
theorem Follows.previous {after : Nat → Bounded β} (hpos : 0 < cursor.place)
    (h : Follows page cursor number step (after (cursor.place - 1)) result) :
    Follows page cursor number step (Bounded.previous >>= after) result := by
  have hbounded : (Bounded.previous >>= after) page.row cursor =
      after (cursor.place - 1) page.row cursor := by
    change Except.bind (Bounded.previous page.row cursor) (fun p => after p.1 page.row p.2) = _
    rw [Bounded.previous, if_neg (Nat.ne_of_gt hpos)]
    rfl
  unfold Follows at h ⊢
  rw [hbounded]
  exact h

/-- A turn that no repetition of the reading answers to. -/
theorem Follows.turn {after : Unit → Bounded β} (hc : Has page (credit + 1) cursor)
    (h : ∀ cursor' : Cursor, cursor'.place = cursor.place → cursor'.turns < cursor.turns →
      Has page credit cursor' → Follows page cursor' number step (after ()) result) :
    Follows page cursor number step (Bounded.turn >>= after) result := by
  obtain ⟨turns, hturns⟩ := Nat.exists_eq_succ_of_ne_zero (Nat.ne_of_gt hc.pos)
  have hlt : turns < cursor.turns := by omega
  have hspend := hc.spend
  rw [hturns, Nat.succ_sub_one] at hspend
  have hnext := h { cursor with turns } rfl hlt hspend
  unfold Follows
  have hbounded : (Bounded.turn >>= after) page.row cursor =
      after () page.row { cursor with turns } := by
    change Except.bind (Bounded.turn page.row cursor) (fun p => after p.1 page.row p.2) = _
    rw [Bounded.turn, hturns]
    rfl
  rw [hbounded]
  exact hnext.trans (Nat.le_refl _) (Nat.le_of_lt hlt)

theorem follows_unexpected (expected : Expected) :
    Follows page cursor number (Reading.unexpected expected) (unexpected expected) result := by
  apply Follows.peek?
  intro token? htoken
  cases token? with
  | none => exact Follows.here (follows_failAt rfl fun _ _ => Page.token?_eq_none.mp htoken)
  | some token => exact Follows.here (follows_failAt rfl (by nofun))

theorem follows_unsupported (construct : Construct) :
    Follows page cursor number (Reading.unsupported construct) (unsupported construct) result :=
  Follows.here (follows_failAt rfl (by nofun))

end Rules

section Loops

variable {expected : Expected} {step : σ → Reading (σ ⊕ α)} {bounded : τ → Bounded (τ ⊕ β)}

/-- What two repetitions come to in one turn. If they go on, they have the credit for another turn.
What is read so far may hold some of the credit back, and then what is read later does so too. -/
def Onward (page : Page) (rel : Nat → σ → Nat → τ → Prop) (owed : σ → Nat)
    (result : Nat → α → Nat → β → Cursor → Prop) (credit : Nat) (s : σ) :
    σ ⊕ α → Nat → τ ⊕ β → Cursor → Prop
  | .inl s', number, .inl t, cursor =>
    rel cursor.place s' number t ∧ owed s ≤ owed s' ∧ Has page (credit + owed s' + 1) cursor
  | .inr a, number, .inr b, cursor => result credit a number b cursor
  | _, _, _, _ => False

/-- A repetition follows another one if each turn of it does. -/
theorem Follows.loop (rel : Nat → σ → Nat → τ → Prop) (owed : σ → Nat)
    (result : Nat → α → Nat → β → Cursor → Prop) {s : σ} {t : τ}
    (hstep : ∀ credit s t (cursor : Cursor) number, rel cursor.place s number t →
      Has page (credit + owed s) cursor →
      Follows page cursor number (step s) (bounded t) (Onward page rel owed result credit s))
    (hrel : rel cursor.place s number t) (hc : Has page (credit + owed s + 1) cursor) :
    Follows page cursor number (Reading.loop expected step s) (Bounded.loop bounded t)
      (result credit) := by
  suffices hfor : ∀ fuel s t (cursor : Cursor) number, cursor.turns ≤ fuel →
      rel cursor.place s number t → Has page (credit + owed s + 1) cursor →
      Follows page cursor number (Reading.loop expected step s) (loopFor bounded fuel t)
        (result credit) from
    hfor cursor.turns s t cursor number (Nat.le_refl _) hrel hc
  intro fuel
  induction fuel with
  | zero =>
    intro s t cursor number hfuel _ hc
    have := hc.pos
    omega
  | succ fuel ih =>
    intro s t cursor number hfuel hrel hc
    apply Follows.turn hc
    intro cursor₁ hplace hlt hc₁
    rw [← hplace] at hrel
    have hone := hstep credit s t cursor₁ number hrel hc₁
    -- With all the credit there is, a turn that goes on shows that a token has been taken.
    obtain ⟨all, hall⟩ : ∃ all, 2 * page.placed.length + (all + owed s) =
        cursor₁.turns + 2 * cursor₁.place :=
      ⟨cursor₁.turns + 2 * cursor₁.place - 2 * page.placed.length - owed s, by
        have := hc₁.2
        omega⟩
    have hexact := hstep all s t cursor₁ number hrel ⟨hc₁.1, Nat.le_of_eq hall⟩
    unfold Follows at hone hexact ⊢
    rw [Reading.loop]
    change Agree page cursor₁ (result credit) _
      (Except.bind (bounded t page.row cursor₁) fun p => _)
    generalize step s _ = outcome, bounded t _ _ = outcome' at hone hexact ⊢
    cases hone with
    | fault place cause hend => exact .fault place cause hend
    | @gives a number' b cursor' hplace' hturns' hnext =>
      obtain ⟨a', number'', heq, hnext'⟩ := hexact.exists_of_ok
      have ha : a = a' := congrArg Prod.fst (Except.ok.inj heq)
      subst ha
      match a, b, hnext, hnext' with
      | .inr a, .inr b, hnext, _ => exact .gives hplace' hturns' hnext
      | .inl s', .inl t', hnext, hnext' =>
        obtain ⟨hrel', howed, hc'⟩ := hnext
        have hworth := hnext'.2.2.2
        have hleft : (page.placed.drop cursor'.place).length <
            (page.placed.drop cursor₁.place).length := by
          have := hc'.1
          rw [List.length_drop, List.length_drop]
          omega
        change Agree page cursor₁ (result credit) (if (page.placed.drop cursor'.place).length <
          (page.placed.drop cursor₁.place).length then _ else _) _
        rw [if_pos hleft]
        exact (ih s' t' cursor' number' (by omega) hrel' hc').trans hplace' hturns'

/-- What two repetitions come to in one turn that have read the same so far. -/
def Further (page : Page) (number credit : Nat) :
    σ ⊕ α → Nat → σ ⊕ α → Cursor → Prop
  | .inl s, number', .inl t, cursor => Same page number (credit + 1) s number' t cursor
  | .inr a, number', .inr b, cursor => Same page number credit a number' b cursor
  | _, _, _, _ => False

theorem Follows.loopSame {bounded : σ → Bounded (σ ⊕ α)} {s : σ}
    (hstep : ∀ credit s (cursor : Cursor), Has page credit cursor →
      Follows page cursor number (step s) (bounded s) (Further page number credit))
    (hc : Has page (credit + 1) cursor) :
    Follows page cursor number (Reading.loop expected step s) (Bounded.loop bounded s)
      (Same page number credit) := by
  refine Follows.loop (fun _ s number' t => s = t ∧ number' = number) (fun _ => 0)
    (Same page number) ?_ ⟨rfl, rfl⟩ hc
  rintro credit s _ cursor _ ⟨rfl, rfl⟩ hc
  apply (hstep credit s cursor hc).imp
  intro next number' next' cursor' h
  match next, next', h with
  | .inl _, .inl _, ⟨heq, hnumber, hc'⟩ => exact ⟨⟨heq, hnumber⟩, Nat.le_refl _, hc'⟩
  | .inr _, .inr _, h => exact h

end Loops

end QuantumIR.Bounded
