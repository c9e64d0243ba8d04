import QuantumIR.Proofs.Bounded.Follows
import QuantumIR.Proofs.Reading.Attributes

/-!
The small bounded readings follow the small readings that have their names. Those that take a token
gain two turns. Those that repeat pay for the turn that finds nothing more.
-/

namespace QuantumIR.Bounded

variable {α β σ τ : Type} {page : Page} {cursor : Cursor} {number credit : Nat}
  {result : α → Nat → β → Cursor → Prop} {step step' : Reading α} {bounded bounded' : Bounded β}

theorem Follows.isNext {token : Token} {next : Bool → Reading α} {after : Bool → Bounded β}
    (h : ∀ found, (found = true ↔ page.token? cursor.place = some token) →
      Follows page cursor number (next found) (after found) result) :
    Follows page cursor number (Reading.isNext token >>= next) (Bounded.isNext token >>= after)
      result := by
  rw [Reading.isNext, Bounded.isNext, bind_assoc, bind_assoc]
  apply Follows.peek?
  intro token? htoken
  rw [pure_bind, pure_bind]
  apply h
  rw [htoken, decide_eq_true_iff]

theorem Follows.takeIf {token : Token} {next : Bool → Reading α} {after : Bool → Bounded β}
    (hc : Has page credit cursor)
    (htaken : page.token? cursor.place = some token → ∀ cursor', Has page (credit + 2) cursor' →
      Follows page cursor' number (next true) (after true) result)
    (hleft : page.token? cursor.place ≠ some token →
      Follows page cursor number (next false) (after false) result) :
    Follows page cursor number (Reading.takeIf token >>= next) (Bounded.takeIf token >>= after)
      result := by
  rw [Reading.takeIf, Bounded.takeIf, bind_assoc, bind_assoc]
  apply Follows.isNext
  intro found hfound
  cases found with
  | true =>
    have htoken := hfound.mp rfl
    rw [if_pos rfl, if_pos rfl, bind_assoc, bind_assoc]
    apply (follows_advance htoken hc).andThen
    intro _ cursor' hc'
    rw [pure_bind, pure_bind]
    exact htaken htoken cursor' hc'
  | false =>
    rw [if_neg Bool.false_ne_true, if_neg Bool.false_ne_true, pure_bind, pure_bind]
    exact hleft fun htoken => Bool.false_ne_true (hfound.mpr htoken)

/-- A token that may be there or not. -/
theorem Follows.takeAny {token : Token} {next : Bool → Reading α} {after : Bool → Bounded β}
    (hc : Has page credit cursor)
    (h : ∀ taken cursor', Has page credit cursor' →
      Follows page cursor' number (next taken) (after taken) result) :
    Follows page cursor number (Reading.takeIf token >>= next) (Bounded.takeIf token >>= after)
      result :=
  Follows.takeIf hc (fun _ cursor' hc' => h true cursor' (hc'.mono (Nat.le_add_right _ _)))
    fun _ => h false cursor hc

/-- One of two ways, whether a token is taken or not. -/
theorem Follows.ifTake {token : Token} (hc : Has page credit cursor)
    (htaken : page.token? cursor.place = some token → ∀ cursor', Has page (credit + 2) cursor' →
      Follows page cursor' number step bounded result)
    (hleft : page.token? cursor.place ≠ some token →
      Follows page cursor number step' bounded' result) :
    Follows page cursor number
      (Reading.takeIf token >>= fun taken => if taken = true then step else step')
      (Bounded.takeIf token >>= fun taken => if taken = true then bounded else bounded') result :=
  Follows.takeIf hc htaken hleft

/-- The other way round. -/
theorem Follows.unlessTake {token : Token} (hc : Has page credit cursor)
    (hleft : page.token? cursor.place ≠ some token →
      Follows page cursor number step bounded result)
    (htaken : page.token? cursor.place = some token → ∀ cursor', Has page (credit + 2) cursor' →
      Follows page cursor' number step' bounded' result) :
    Follows page cursor number
      (Reading.takeIf token >>= fun taken => if (!taken) = true then step else step')
      (Bounded.takeIf token >>= fun taken => if (!taken) = true then bounded else bounded')
      result :=
  Follows.takeIf hc htaken hleft

/-- One of two tokens has to be there. -/
theorem Follows.takeEither {token token' : Token} {expected : Expected}
    (hc : Has page credit cursor)
    (h : ∀ cursor', Has page (credit + 2) cursor' →
      Follows page cursor' number step bounded result) :
    Follows page cursor number
      (Reading.takeIf token >>= fun taken => if (!taken) = true then
        Reading.takeIf token' >>= fun taken => if (!taken) = true then
          Reading.unexpected expected >>= fun _ : Unit => step else step else step)
      (Bounded.takeIf token >>= fun taken => if (!taken) = true then
        Bounded.takeIf token' >>= fun taken => if (!taken) = true then
          Bounded.unexpected expected >>= fun _ : Unit => bounded else bounded else bounded)
      result := by
  apply Follows.unlessTake hc
  · intro _
    apply Follows.unlessTake hc
    · intro _
      exact (follows_unexpected _).stop
    · intro _ cursor' hc'
      exact h cursor' hc'
  · intro _ cursor' hc'
    exact h cursor' hc'

/-- One of two ways, whether a token is next or not. -/
theorem Follows.ifNext {token : Token}
    (hnext : page.token? cursor.place = some token →
      Follows page cursor number step bounded result)
    (hother : Follows page cursor number step' bounded' result) :
    Follows page cursor number
      (Reading.isNext token >>= fun found => if found = true then step else step')
      (Bounded.isNext token >>= fun found => if found = true then bounded else bounded')
      result :=
  Follows.isNext fun _ hfound => Follows.ite (fun htrue => hnext (hfound.mp htrue)) fun _ => hother

theorem follows_expect {token : Token} (hc : Has page credit cursor) :
    Follows page cursor number (Reading.expect token) (expect token)
      (Same page number (credit + 2)) :=
  Follows.unlessTake hc (fun _ => follows_unexpected _)
    fun _ _ hc' => Follows.pure ⟨rfl, rfl, hc'⟩

theorem follows_integer (hc : Has page credit cursor) :
    Follows page cursor number Reading.integer integer (Same page number (credit + 2)) := by
  apply Follows.peek?
  intro token? htoken
  cases token? with
  | none => exact follows_unexpected _
  | some token =>
    cases token with
    | integer n =>
      exact (follows_advance htoken hc).andThen fun _ _ hc' => Follows.pure ⟨rfl, rfl, hc'⟩
    | _ => exact follows_unexpected _

theorem follows_stringLiteral (hc : Has page credit cursor) :
    Follows page cursor number Reading.stringLiteral stringLiteral
      (Same page number (credit + 2)) := by
  apply Follows.peek?
  intro token? htoken
  cases token? with
  | none => exact follows_unexpected _
  | some token =>
    cases token with
    | string text =>
      exact (follows_advance htoken hc).andThen fun _ _ hc' => Follows.pure ⟨rfl, rfl, hc'⟩
    | _ => exact follows_unexpected _

theorem follows_localName (hc : Has page credit cursor) :
    Follows page cursor number Reading.localName localName (Same page number (credit + 2)) := by
  apply Follows.peek?
  intro token? htoken
  cases token? with
  | none => exact follows_unexpected _
  | some token =>
    cases token with
    | localName name =>
      exact (follows_advance htoken hc).andThen fun _ _ hc' => Follows.pure ⟨rfl, rfl, hc'⟩
    | _ => exact follows_unexpected _

theorem follows_globalName (hc : Has page credit cursor) :
    Follows page cursor number Reading.globalName globalName (Same page number (credit + 2)) := by
  apply Follows.peek?
  intro token? htoken
  cases token? with
  | none => exact follows_unexpected _
  | some token =>
    cases token with
    | globalName name =>
      exact (follows_advance htoken hc).andThen fun _ _ hc' => Follows.pure ⟨rfl, rfl, hc'⟩
    | _ => exact follows_unexpected _

theorem follows_skipInteger (hc : Has page credit cursor) :
    Follows page cursor number Reading.skipInteger skipInteger (Same page number credit) := by
  apply Follows.peek?
  intro token? htoken
  cases token? with
  | none => exact Follows.pure ⟨rfl, rfl, hc⟩
  | some token =>
    cases token with
    | integer n => exact (follows_advance htoken hc).same (Nat.le_add_right _ _)
    | _ => exact Follows.pure ⟨rfl, rfl, hc⟩

/-- A repetition follows a reading that does not repeat steps if, from each cursor on, the reading
does what one step and then the reading itself do. -/
theorem Follows.answer (reading : τ → Reading α) {turn : τ → Bounded (τ ⊕ β)} {t : τ}
    (hturn : ∀ t (cursor : Cursor) (again : τ → Bounded β), Has page credit cursor →
      (∀ t' (cursor' : Cursor), cursor'.turns ≤ cursor.turns → Has page (credit + 1) cursor' →
        Follows page cursor' number (reading t') (again t') result) →
      Follows page cursor number (reading t)
        (turn t >>= fun next => match next with
          | .inl t' => again t'
          | .inr b => return b) result)
    (hc : Has page (credit + 1) cursor) :
    Follows page cursor number (reading t) (Bounded.loop turn t) result := by
  suffices hfor : ∀ fuel t (cursor : Cursor), cursor.turns ≤ fuel →
      Has page (credit + 1) cursor →
      Follows page cursor number (reading t) (loopFor turn fuel t) result from
    hfor cursor.turns t cursor (Nat.le_refl _) hc
  intro fuel
  induction fuel with
  | zero =>
    intro t cursor hfuel hc
    have := hc.pos
    omega
  | succ fuel ih =>
    intro t cursor hfuel hc
    apply Follows.turn hc
    intro cursor₁ hplace hlt hc₁
    apply hturn t cursor₁ (loopFor turn fuel) hc₁
    intro t' cursor' hle hc'
    exact ih t' cursor' (by omega) hc'

/-- Dropping tokens as long as a test accepts them, one token at a time. -/
theorem eq_skipOne {accept : Token → Bool} {reading : Reading Unit}
    (hreading : ∀ state, reading state =
      .ok ((), { state with rest := state.rest.dropWhile fun token => accept token.token })) :
    reading = Reading.peek? >>= fun token? => match token? with
      | some token => if accept token then Reading.advance >>= fun _ => reading else pure ()
      | none => pure () := by
  funext ⟨rest, number⟩
  cases rest with
  | nil => exact hreading ⟨[], number⟩
  | cons first others =>
    change _ = (if accept first.token then Reading.advance >>= fun _ => reading else pure ()) _
    rw [hreading]
    simp only [List.dropWhile_cons]
    split_ifs
    · exact (hreading ⟨others, number⟩).symm
    · rfl

theorem follows_skipWhile {accept : Token → Bool} {reading : Reading Unit}
    (hreading : ∀ state, reading state =
      .ok ((), { state with rest := state.rest.dropWhile fun token => accept token.token }))
    (hc : Has page (credit + 1) cursor) :
    Follows page cursor number reading (skipWhile accept) (Same page number credit) := by
  refine Follows.answer (fun _ => reading) ?_ hc
  intro _ cursor again hc hagain
  rw [eq_skipOne hreading, skipOne, bind_assoc]
  apply Follows.peek?
  intro token? htoken
  cases token? with
  | none => exact Follows.pure ⟨rfl, rfl, hc⟩
  | some token =>
    simp only []
    cases accept token with
    | true =>
      rw [if_pos rfl, if_pos rfl, bind_assoc]
      apply (follows_advance htoken hc).bindLe
      rintro _ _ _ cursor' _ hle ⟨_, rfl, hc'⟩
      exact hagain () cursor' hle (hc'.mono (by omega))
    | false => exact Follows.pure ⟨rfl, rfl, hc⟩

theorem follows_skipWords {accept : String → Bool} (hc : Has page (credit + 1) cursor) :
    Follows page cursor number (Reading.skipWords accept) (skipWords accept)
      (Same page number credit) :=
  follows_skipWhile (fun _ => rfl) hc

theorem unexpected_bind {expected : Expected} {next : α → Bounded β} :
    (unexpected expected >>= next) = unexpected expected := by
  rw [unexpected, unexpected, bind_assoc]
  refine congrArg (peek? >>= ·) (funext fun token? => ?_)
  cases token? <;> rfl

/-- The tokens after the closing parenthesis, one token at a time. -/
def leaveParens (depth : Nat) : Reading Unit := fun state =>
  match Reading.afterParens depth state.rest with
  | some rest => .ok ((), { state with rest })
  | none => .error ⟨none, .unexpectedEnd (.token (.mark .rightParen))⟩

theorem leaveParens_eq (depth : Nat) :
    leaveParens depth = Reading.peek? >>= fun token? => match token? with
      | some token => Reading.advance >>= fun _ =>
        if token = .mark .leftParen then leaveParens (depth + 1)
        else if token = .mark .rightParen then
          if depth ≤ 1 then pure () else leaveParens (depth - 1)
        else leaveParens depth
      | none => Reading.unexpected (.token (.mark .rightParen)) := by
  funext ⟨rest, number⟩
  cases rest with
  | nil => rfl
  | cons first others =>
    change _ = (if first.token = .mark .leftParen then leaveParens (depth + 1)
      else if first.token = .mark .rightParen then
        if depth ≤ 1 then pure () else leaveParens (depth - 1)
      else leaveParens depth) ⟨others, number⟩
    rw [leaveParens, Reading.afterParens_cons]
    split_ifs <;> rfl

theorem follows_skipToParen (hc : Has page (credit + 1) cursor) :
    Follows page cursor number Reading.skipToParen skipToParen (Same page number credit) := by
  suffices h : Follows page cursor number (leaveParens 1) (loop skipInParens 1)
      (Same page number credit) from h
  refine Follows.answer leaveParens ?_ hc
  intro depth cursor again hc hagain
  rw [leaveParens_eq, skipInParens, bind_assoc]
  apply Follows.peek?
  intro token? htoken
  cases token? with
  | none =>
    simp only [unexpected_bind]
    exact follows_unexpected _
  | some token =>
    simp only [bind_assoc]
    apply (follows_advance htoken hc).bindLe
    rintro _ number' _ cursor' _ hle ⟨_, hnumber, hc'⟩
    rw [hnumber]
    have hgo : ∀ depth', Follows page cursor' number (leaveParens depth') (again depth')
        (Same page number credit) :=
      fun depth' => hagain depth' cursor' hle (hc'.mono (by omega))
    split_ifs
    · exact hgo (depth + 1)
    · exact Follows.pure ⟨rfl, rfl, hc'.mono (by omega)⟩
    · exact hgo (depth - 1)
    · exact hgo depth

/-- Items in parentheses take two tokens, and each item pays for the turn that reads it. -/
theorem follows_parenthesized {item : Reading α} {item' : Nat → Bounded (α × Nat)}
    (hitem : ∀ credit (cursor : Cursor) number, Has page credit cursor →
      Follows page cursor number item (item' number) (Numbered page credit))
    (hc : Has page credit cursor) :
    Follows page cursor number (Reading.parenthesized item) (parenthesized item' number)
      (Numbered page (credit + 3)) := by
  apply (follows_expect hc).andThen
  intro _ cursor hc
  apply Follows.ifTake hc
  · intro _ cursor' hc'
    exact Follows.pure ⟨rfl, hc'.mono (by omega)⟩
  · intro _
    have hitems : Follows page cursor number (Reading.commaSeparated .ty item)
        (loop (readItem item') ([], number)) (Numbered page (credit + 1)) := by
      refine Follows.loop (fun _ items number items' => items' = (items, number)) (fun _ => 0)
        (fun credit => Numbered page credit) ?_ rfl hc
      rintro credit items _ cursor number rfl hc
      apply (hitem _ cursor number hc).andThenNumbered
      intro a number' cursor' hc'
      apply Follows.ifTake hc'
      · intro _ cursor' hc'
        exact Follows.pure ⟨rfl, Nat.le_refl _, hc'.mono (Nat.le_succ _)⟩
      · intro _
        exact Follows.pure ⟨rfl, hc'⟩
    apply hitems.andThenNumbered
    intro items number' cursor' hc'
    apply (follows_expect hc').andThen
    intro _ cursor' hc'
    exact Follows.pure ⟨rfl, hc'⟩

end QuantumIR.Bounded
