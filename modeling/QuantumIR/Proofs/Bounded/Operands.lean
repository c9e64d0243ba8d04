import QuantumIR.Proofs.Bounded.Grammar
import QuantumIR.Proofs.Bounded.Taking
import QuantumIR.Proofs.Bounded.Types

/-!
The bounded readings of types and operands follow the readings of them. A type gains one turn and an
operand two, whatever stars and attributes they have. Neither reading touches the number for the
next thing without a name.
-/

namespace QuantumIR.Bounded

variable {page : Page} {cursor : Cursor} {number credit : Nat}

theorem follows_readStars {ty : Ty} (hc : Has page (credit + 1) cursor) :
    Follows page cursor number ty.readStars (readStars ty) (Same page number credit) := by
  refine Follows.loopSame ?_ hc
  intro credit ty cursor hc
  apply Follows.ifTake hc
  · intro _ cursor' hc'
    exact Follows.pure ⟨rfl, rfl, hc'.mono (Nat.le_succ _)⟩
  · intro _
    exact Follows.pure ⟨rfl, rfl, hc⟩

theorem follows_readBaseAt {token? : Option Token} (htoken : page.token? cursor.place = token?)
    (hc : Has page credit cursor) :
    Follows page cursor number (Ty.readBaseAt token?) (readBaseAt token?)
      (Same page number (credit + 2)) := by
  have htake : ∀ {token : Token} {ty : Ty}, page.token? cursor.place = some token →
      Follows page cursor number (Reading.advance >>= fun _ => pure ty)
        (advance >>= fun _ => pure ty)
        (Same page number (credit + 2)) := fun htoken =>
    (follows_advance htoken hc).andThen fun _ _ hc' => Follows.pure ⟨rfl, rfl, hc'⟩
  cases token? with
  | none => exact follows_unexpected _
  | some token =>
    cases token with
    | intType width => exact htake htoken
    | localName name => exact htake htoken
    | keyword word =>
      cases word with
      | void => exact htake htoken
      | double => exact htake htoken
      | ptr =>
        apply (follows_advance htoken hc).andThen
        intro _ cursor' hc'
        apply Follows.ifNext
        · intro hnext
          exact (follows_advance hnext hc').andThen fun _ _ _ => (follows_unsupported _).stop
        · exact Follows.pure ⟨rfl, rfl, hc'⟩
      | _ => exact follows_unexpected _
    | word word =>
      exact Follows.ite (fun _ => follows_unsupported _) fun _ => follows_unexpected _
    | _ => exact follows_unexpected _

theorem follows_readTyWith {readElement : Bounded Ty} (hc : Has page credit cursor)
    (helement : ∀ cursor', cursor'.turns ≤ cursor.turns → Has page (credit + 6) cursor' →
      Follows page cursor' number Ty.read readElement (Same page number (credit + 6))) :
    Follows page cursor number Ty.read (readTyWith readElement)
      (Same page number (credit + 1)) := by
  rw [Ty.read_eq, Reading.takeIf_bind]
  apply Follows.peek?
  intro token? htoken
  apply Follows.ite
  · rintro rfl
    apply (follows_advance htoken hc).bindLe
    rintro _ _ _ cursor₁ - hle₁ ⟨-, rfl, hc₁⟩
    apply (follows_integer hc₁).bindLe
    rintro length _ _ cursor₂ - hle₂ ⟨rfl, rfl, hc₂⟩
    apply Follows.ite
    · intro _
      exact (follows_unexpected _).stop
    · intro _
      apply (follows_expect hc₂).bindLe
      rintro _ _ _ cursor₃ - hle₃ ⟨-, rfl, hc₃⟩
      apply (helement cursor₃ (by omega) hc₃).andThen
      intro element cursor₄ hc₄
      apply (follows_expect hc₄).andThen
      intro _ cursor₅ hc₅
      have hc₆ : Has page (credit + 1 + 1) cursor₅ := hc₅.mono (by omega)
      exact follows_readStars hc₆
  · intro _
    apply (Follows.peekKnown htoken (follows_readBaseAt htoken hc)).andThen
    intro base cursor' hc'
    exact follows_readStars hc'

theorem follows_readTy (hc : Has page credit cursor) :
    Follows page cursor number Ty.read readTy (Same page number (credit + 1)) := by
  suffices hfor : ∀ fuel credit (cursor : Cursor), cursor.turns ≤ fuel → Has page credit cursor →
      Follows page cursor number Ty.read (readTyFor fuel) (Same page number (credit + 1)) from
    hfor cursor.turns credit cursor (Nat.le_refl _) hc
  intro fuel
  induction fuel with
  | zero =>
    intro credit cursor hfuel hc
    apply follows_readTyWith hc
    intro cursor' hle hc'
    have := hc'.pos
    omega
  | succ fuel ih =>
    intro credit cursor hfuel hc
    apply follows_readTyWith hc
    intro cursor' hle hc'
    apply Follows.turn hc'
    intro cursor'' _ hlt hc''
    exact ih (credit + 5) cursor'' (by omega) hc''

theorem follows_skipParamAttributes (hc : Has page (credit + 1) cursor) :
    Follows page cursor number QuantumIR.skipParamAttributes skipParamAttributes
      (Same page number credit) := by
  refine Follows.loopSame ?_ hc
  intro credit _ cursor hc
  apply Follows.peek?
  intro token? htoken
  cases token? with
  | none => exact Follows.pure ⟨rfl, rfl, hc⟩
  | some token =>
    cases token with
    | word word =>
      apply Follows.ite
      · intro _
        exact Follows.pure ⟨rfl, rfl, hc⟩
      · intro _
        apply (follows_advance htoken hc).andThen
        intro _ cursor₁ hc₁
        apply Follows.ifTake hc₁
        · intro _ cursor₂ hc₂
          apply (follows_skipToParen hc₂).andThen
          intro _ cursor₃ hc₃
          exact Follows.pure ⟨rfl, rfl, hc₃.mono (by omega)⟩
        · intro _
          apply Follows.ite
          · intro _
            apply (follows_skipInteger hc₁).andThen
            intro _ cursor₂ hc₂
            exact Follows.pure ⟨rfl, rfl, hc₂.mono (Nat.le_succ _)⟩
          · intro _
            exact Follows.pure ⟨rfl, rfl, hc₁.mono (Nat.le_succ _)⟩
    | _ => exact Follows.pure ⟨rfl, rfl, hc⟩

theorem follows_readAddress (hc : Has page credit cursor) :
    Follows page cursor number Value.readAddress readAddress (Same page number credit) := by
  apply (follows_expect hc).andThen
  intro _ cursor hc
  apply (follows_readTy hc).andThen
  intro source cursor hc
  apply Follows.ite
  · intro _
    exact (follows_unexpected _).stop
  · intro _
    apply (follows_integer hc).andThen
    intro index cursor hc
    apply (follows_expect hc).andThen
    intro _ cursor hc
    apply (follows_readTy hc).andThen
    intro _ cursor hc
    apply (follows_expect hc).andThen
    intro _ cursor hc
    exact Follows.pure ⟨rfl, rfl, hc.mono (by omega)⟩

theorem follows_readZeroIndex {start : Nat} (hc : Has page (credit + 1) cursor) :
    Follows page cursor number (Value.readZeroIndex (page.placeOf start)) (readZeroIndex start)
      (Same page number (credit + 1)) := by
  apply Follows.turn hc
  intro cursor _ _ hc
  apply (follows_expect hc).andThen
  intro _ cursor hc
  apply (follows_readTy hc).andThen
  intro ty cursor hc
  apply Follows.ite
  · intro _
    exact (follows_unexpected _).stop
  · intro _
    apply (follows_integer hc).andThen
    intro index cursor hc
    apply Follows.ite
    · intro _
      exact follows_failAt rfl (by nofun)
    · intro _
      exact Follows.pure ⟨rfl, rfl, hc.mono (by omega)⟩

theorem follows_readFirstByte {start : Place} (hpos : 0 < cursor.place)
    (hstart : start = page.placeOf (cursor.place - 1)) (hc : Has page credit cursor) :
    Follows page cursor number (Value.readFirstByte start) readFirstByte
      (Same page number credit) := by
  subst hstart
  apply Follows.previous hpos
  generalize cursor.place - 1 = start
  apply Follows.takeAny hc
  intro _ cursor hc
  apply (follows_expect hc).andThen
  intro _ cursor hc
  apply (follows_readTy hc).andThen
  intro ty cursor hc
  cases ty with
  | array length element =>
    apply (follows_expect hc).andThen
    intro _ cursor hc
    apply (follows_readTy hc).andThen
    intro pointer cursor hc
    apply Follows.ite
    · intro _
      exact (follows_unexpected _).stop
    · intro _
      apply (follows_globalName hc).andThen
      intro name cursor hc
      apply (follows_readZeroIndex hc).andThen
      intro _ cursor hc
      apply (follows_readZeroIndex hc).andThen
      intro _ cursor hc
      apply (follows_expect hc).andThen
      intro _ cursor hc
      exact Follows.pure ⟨rfl, rfl, hc.mono (by omega)⟩
  | _ => exact follows_failAt rfl (by nofun)

theorem follows_readValue {ty : Ty} (hc : Has page credit cursor) :
    Follows page cursor number (Value.read ty) (readValue ty) (Same page number (credit + 2)) := by
  apply Follows.peek?
  intro token? htoken
  have htake : ∀ {token : Token} {value : Value}, page.token? cursor.place = some token →
      Follows page cursor number (Reading.advance >>= fun _ => pure value)
        (advance >>= fun _ => pure value) (Same page number (credit + 2)) := fun htoken =>
    (follows_advance htoken hc).andThen fun _ _ hc' => Follows.pure ⟨rfl, rfl, hc'⟩
  cases token? with
  | none => exact follows_unexpected _
  | some token =>
    cases token with
    | localName name => exact htake htoken
    | globalName name => exact htake htoken
    | integer n => exact htake htoken
    | float x =>
      apply Follows.ite
      · intro _
        exact htake htoken
      · intro _
        exact follows_unexpected _
    | keyword word =>
      cases word with
      | trueWord => exact htake htoken
      | falseWord => exact htake htoken
      | null => exact htake htoken
      | inttoptr =>
        exact (follows_advance htoken hc).andThen fun _ _ hc' => follows_readAddress hc'
      | getelementptr =>
        apply Follows.hereKnown
        apply (follows_advance_place htoken hc).bind
        rintro _ _ _ cursor' ⟨hplace, -, rfl, hc'⟩
        refine follows_readFirstByte ?_ ?_ hc'
        · rw [hplace]
          exact Nat.succ_pos _
        · rw [hplace, Nat.add_sub_cancel]
      | _ => exact follows_unexpected _
    | word word =>
      exact Follows.ite (fun _ => follows_unsupported _) fun _ => follows_unexpected _
    | _ => exact follows_unexpected _

theorem follows_readOperand (hc : Has page credit cursor) :
    Follows page cursor number Operand.read readOperand (Same page number (credit + 2)) := by
  apply (follows_readTy hc).andThen
  intro ty cursor hc
  apply (follows_skipParamAttributes hc).andThen
  intro _ cursor hc
  apply (follows_readValue hc).andThen
  intro value cursor hc
  exact Follows.pure ⟨rfl, rfl, hc⟩

end QuantumIR.Bounded
