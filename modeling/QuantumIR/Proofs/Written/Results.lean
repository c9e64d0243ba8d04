import QuantumIR.Proofs.Bounded.Functions

/-!
The names of results. Of all that is read in an instruction, only its result can take the number for
the next thing without a name, and it does so only if the instruction gives a value and no register
is written in front of it.
-/

namespace QuantumIR

namespace Reading

variable {α β σ : Type}

/-- What one turn of a repetition shows if it is the last one, and what it shows of the turns after
it otherwise, holds of the whole repetition. -/
theorem induction_of_loop {expected : Expected} {step : σ → Reading (σ ⊕ α)}
    {motive : σ → ReadState → α → ReadState → Prop}
    (hstop : ∀ s state a after, step s state = .ok (.inr a, after) → motive s state a after)
    (hgo : ∀ s state s' middle a after, step s state = .ok (.inl s', middle) →
      motive s' middle a after → motive s state a after)
    {s : σ} {state after : ReadState} {a : α} (h : loop expected step s state = .ok (a, after)) :
    motive s state a after := by
  induction hn : state.rest.length using Nat.strong_induction_on generalizing s state with
  | _ n ih =>
    rw [loop] at h
    split at h
    · cases h
    · next b middle hstep =>
      cases h
      exact hstop s state _ _ hstep
    · next s' middle hstep =>
      split at h
      · next hlt => exact hgo s state s' middle a after hstep (ih _ (hn ▸ hlt) h rfl)
      · exact absurd h (ne_ok_of_gives fun _ => gives_unexpected expected)

/-- A step leaves the number for the next thing without a name as it is. -/
def Quiet (step : Reading α) : Prop :=
  ∀ state a after, step state = .ok (a, after) → after.next = state.next

/-- A bounded reading knows of no number unless it is told one. -/
theorem quiet_of_follows {step : Reading α} {bounded : Bounded α} {credit : Nat}
    (h : ∀ {page : Bounded.Page} {cursor : Bounded.Cursor} {number : Nat},
      Bounded.Has page 1 cursor →
      Bounded.Follows page cursor number step bounded (Bounded.Same page number credit)) :
    Quiet step := by
  intro state a after hstep
  have hcredit : Bounded.Has (Bounded.freePage state.rest) 1 ⟨0, 2 * state.rest.length + 1⟩ :=
    ⟨Nat.zero_le _, Nat.le_refl _⟩
  have hagree := @h _ _ state.next hcredit
  unfold Bounded.Follows at hagree
  generalize bounded _ _ = outcome at hagree
  change Bounded.Agree _ _ _ (step state) _ at hagree
  rw [hstep] at hagree
  cases hagree with
  | gives _ _ hsame => exact hsame.2.1

theorem Quiet.bind {step : Reading α} {next : α → Reading β} (h : Quiet step)
    (h' : ∀ a, Quiet (next a)) : Quiet (step >>= next) := by
  intro state b after hstep
  obtain ⟨a, middle, hfirst, hnext⟩ := ok_bind hstep
  rw [h' a middle b after hnext, h state a middle hfirst]

theorem Quiet.pure (a : α) : Quiet (Pure.pure a) := by
  rintro state _ _ ⟨⟩
  rfl

theorem Quiet.ite {c : Prop} [Decidable c] {step step' : Reading α} (h : Quiet step)
    (h' : Quiet step') : Quiet (if c then step else step') := by
  split
  · exact h
  · exact h'

theorem Quiet.loop {expected : Expected} {step : σ → Reading (σ ⊕ α)} (h : ∀ s, Quiet (step s))
    (s : σ) : Quiet (Reading.loop expected step s) := by
  intro state a after hloop
  refine induction_of_loop (motive := fun _ state _ after => after.next = state.next) ?_ ?_ hloop
  · intro s state a after hstep
    exact h s state _ after hstep
  · intro s state s' middle a after hstep hmore
    rw [hmore, h s state _ middle hstep]

theorem quiet_here : Quiet here := by
  rintro state _ _ ⟨⟩
  rfl

theorem quiet_peek? : Quiet peek? := by
  rintro state _ _ ⟨⟩
  rfl

theorem quiet_advance : Quiet advance := by
  rintro state _ _ ⟨⟩
  rfl

theorem quiet_isNext (token : Token) : Quiet (isNext token) :=
  quiet_peek?.bind fun _ => Quiet.pure _

theorem quiet_takeIf (token : Token) : Quiet (takeIf token) :=
  (quiet_isNext token).bind fun _ => Quiet.ite (quiet_advance.bind fun _ => Quiet.pure _)
    (Quiet.pure _)

theorem quiet_expect (token : Token) : Quiet (expect token) :=
  quiet_of_follows Bounded.follows_expect

theorem quiet_skipWords (accept : String → Bool) : Quiet (skipWords accept) :=
  quiet_of_follows Bounded.follows_skipWords

theorem quiet_parenthesized {item : Reading α} (h : Quiet item) : Quiet (parenthesized item) := by
  have hitem : ∀ items, Quiet (readItem item items) := fun items =>
    h.bind fun _ => (quiet_takeIf _).bind fun _ => Quiet.ite (Quiet.pure _) (Quiet.pure _)
  apply (quiet_expect _).bind
  intro _
  apply (quiet_takeIf _).bind
  intro empty
  exact Quiet.ite (Quiet.pure _)
    ((Quiet.loop hitem []).bind fun _ => (quiet_expect _).bind fun _ => Quiet.pure _)

end Reading

namespace Instruction

open Reading

variable {α : Type} {result : Option String}

/-- The name of a result, from the register that is written in front of an instruction and the
number for the next thing without a name, and the number after that. -/
inductive Named : Option String → Nat → Option String → Nat → Prop where
  | written (name : String) (number : Nat) : Named (some name) number (some name) number
  | numbered (number : Nat) : Named none number (some (toString number)) (number + 1)
  | void (number : Nat) : Named none number none number

/-- A step reads an instruction and names its result. -/
def Names (result : Option String) (step : Reading Instruction) : Prop :=
  ∀ state instruction after, step state = .ok (instruction, after) →
    Named result state.next instruction.result? after.next

theorem Names.after {first : Reading α} {next : α → Reading Instruction} (hfirst : Quiet first)
    (h : ∀ a, Names result (next a)) : Names result (first >>= next) := by
  intro state instruction after hstep
  obtain ⟨a, middle, hfirst', hnext⟩ := ok_bind hstep
  rw [← hfirst state a middle hfirst']
  exact h a middle instruction after hnext

theorem Names.ite {c : Prop} [Decidable c] {step step' : Reading Instruction}
    (h : c → Names result step) (h' : ¬c → Names result step') :
    Names result (if c then step else step') := by
  split
  · next hc => exact h hc
  · next hc => exact h' hc

theorem Names.fails {step : Reading Instruction} (h : ∀ row, Gives row step fun _ => False) :
    Names result step := by
  intro state instruction after hstep
  exact absurd hstep (ne_ok_of_gives h)

/-- An instruction without a value has no register in front of it. -/
theorem Names.void {instruction : Instruction} (h : instruction.result? = none) :
    Names none (pure instruction) := by
  rintro state _ _ ⟨⟩
  rw [h]
  exact .void _

/-- A value is named before the instruction is given. -/
theorem Names.nameResult {make : String → Instruction}
    (h : ∀ name, (make name).result? = some name) :
    Names result (nameResult result >>= fun name => pure (make name)) := by
  intro state instruction after hstep
  cases result with
  | none =>
    cases hstep
    rw [h]
    exact .numbered _
  | some name =>
    cases hstep
    rw [h]
    exact .written name _

/-- What gives no value is refused if a register is written in front of it. -/
theorem Names.refuse {start : Place} {next : Unit → Reading Instruction}
    (h : Names none (next ())) :
    Names result (refuseResult result start >>= next) := by
  cases result with
  | none => exact h
  | some name => exact Names.fails fun _ => (gives_failAt _ _).stop

theorem names_readCall : Names result (readCall result) := by
  apply Names.after quiet_here
  intro start
  apply Names.after (quiet_expect _)
  intro _
  apply Names.after (quiet_skipWords _)
  intro _
  apply Names.after (quiet_of_follows Bounded.follows_readTy)
  intro ret
  apply Names.after (quiet_isNext _)
  intro found
  have hrest : Names result (do
      let callee ← readCallee
      let args ← parenthesized Operand.read
      skipGroups
      if ret.isVoid then
        refuseResult result start
        return .call none ret callee args
      else return .call (some (← nameResult result)) ret callee args) := by
    apply Names.after (quiet_of_follows Bounded.follows_readCallee)
    intro callee
    apply Names.after (quiet_parenthesized (quiet_of_follows Bounded.follows_readOperand))
    intro args
    apply Names.after (quiet_of_follows Bounded.follows_skipGroups)
    intro _
    apply Names.ite
    · intro _
      exact Names.refuse (Names.void rfl)
    · intro _
      exact Names.nameResult fun _ => rfl
  apply Names.ite
  · intro _
    exact Names.fails fun _ => (gives_unsupported _).stop
  · intro _
    exact hrest

theorem names_readReturn : Names none readReturn := by
  apply Names.after (quiet_takeIf _)
  intro found
  apply Names.ite
  · intro _
    exact Names.void rfl
  · intro _
    exact Names.after (quiet_of_follows Bounded.follows_readOperand) fun _ => Names.void rfl

theorem names_readBranch : Names none readBranch := by
  apply Names.after (quiet_takeIf _)
  intro found
  have hrest : Names none (do
      let ty ← Ty.read
      if ty ≠ .bool then unsupported (.branchOn ty)
      let condition ← Value.read ty
      expectMark .comma
      let onTrue ← readLabel
      expectMark .comma
      return .branchIf condition onTrue (← readLabel)) := by
    apply Names.after (quiet_of_follows Bounded.follows_readTy)
    intro ty
    apply Names.ite
    · intro _
      exact Names.fails fun _ => (gives_unsupported _).stop
    · intro _
      apply Names.after (quiet_of_follows Bounded.follows_readValue)
      intro condition
      apply Names.after (quiet_expect _)
      intro _
      apply Names.after (quiet_of_follows Bounded.follows_readTarget)
      intro onTrue
      apply Names.after (quiet_expect _)
      intro _
      exact Names.after (quiet_of_follows Bounded.follows_readTarget) fun _ => Names.void rfl
  apply Names.ite
  · intro _
    exact Names.after (quiet_of_follows Bounded.follows_localName) fun _ => Names.void rfl
  · intro _
    exact hrest

theorem names_readCompare : Names result (readCompare result) := by
  apply Names.after quiet_peek?
  intro token?
  dsimp only
  split
  · exact Names.fails fun _ => gives_unexpected _
  · apply Names.after quiet_advance
    intro _
    apply Names.after (quiet_of_follows Bounded.follows_readPair)
    intro pair
    exact Names.nameResult fun _ => rfl

theorem names_readSelect (start : Place) : Names result (readSelect result start) := by
  apply Names.after (quiet_of_follows Bounded.follows_readOperand)
  intro condition
  apply Names.ite
  · intro _
    exact Names.fails fun _ => (gives_unsupportedAt _ _).stop
  · intro _
    apply Names.after (quiet_expect _)
    intro _
    apply Names.after (quiet_of_follows Bounded.follows_readOperand)
    intro onTrue
    apply Names.after (quiet_expect _)
    intro _
    apply Names.after (quiet_of_follows Bounded.follows_readOperand)
    intro onFalse
    apply Names.ite
    · intro _
      exact Names.fails fun _ => (gives_unsupportedAt _ _).stop
    · intro _
      exact Names.nameResult fun _ => rfl

theorem names_readBinary (op : BinaryOp) : Names result (readBinary result op) := by
  apply Names.after (quiet_skipWords _)
  intro _
  apply Names.after (quiet_of_follows Bounded.follows_readPair)
  intro pair
  exact Names.nameResult fun _ => rfl

theorem names_readConvert (conversion : Conversion) (start : Place) :
    Names result (readConvert result conversion start) := by
  apply Names.after (quiet_takeIf _)
  intro _
  apply Names.after (quiet_of_follows Bounded.follows_readTy)
  intro source
  split
  · exact Names.fails fun _ => gives_unsupportedAt _ _
  · apply Names.after (quiet_of_follows Bounded.follows_readValue)
    intro value
    apply Names.after (quiet_expect _)
    intro _
    apply Names.after (quiet_of_follows Bounded.follows_readTy)
    intro target
    split
    · exact Names.fails fun _ => gives_unsupportedAt _ _
    · exact Names.nameResult fun _ => rfl

theorem names_readWord (start : Place) (word : String) :
    Names result (readWord result start word) := by
  apply Names.ite
  · intro _
    apply Names.after quiet_advance
    intro _
    apply Names.after (quiet_isNext _)
    intro found
    exact Names.ite (fun _ => names_readCall) fun _ => Names.fails fun _ => gives_unexpected _
  · intro _
    split
    · exact Names.after quiet_advance fun _ => names_readBinary _
    · exact Names.after quiet_advance fun _ => names_readConvert _ _
    · exact Names.fails fun _ => gives_unsupported _

/-- An instruction names its result. -/
theorem names_readBody : Names result (readBody result) := by
  apply Names.after quiet_here
  intro start
  apply Names.after quiet_peek?
  intro token?
  split
  · exact names_readCall
  · exact Names.refuse (Names.after quiet_advance fun _ => names_readReturn)
  · exact Names.refuse (Names.after quiet_advance fun _ => names_readBranch)
  · exact Names.after quiet_advance fun _ => names_readCompare
  · exact Names.after quiet_advance fun _ => names_readSelect start
  · exact names_readWord start _
  · exact Names.fails fun _ => gives_unexpected _

end Instruction

end QuantumIR
