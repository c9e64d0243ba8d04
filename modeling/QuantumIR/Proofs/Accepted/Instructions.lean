import QuantumIR.Proofs.Accepted.Operands

/-!
Instructions that are read can be written. A returned operand does not start with the word `void`,
as a return of nothing does.
-/

namespace QuantumIR

open Reading

variable {row : List PlacedToken}

/-- A token that is not taken is not the next one. -/
theorem Reading.of_takeIf_eq_false {token : Token} {state after : ReadState}
    (h : takeIf token state = .ok (false, after)) :
    after = state ∧ state.rest.head?.map PlacedToken.token ≠ some token := by
  obtain ⟨found, middle, hnext, h⟩ := ok_bind h
  cases hnext
  split at h
  · obtain ⟨_, _, -, h⟩ := ok_bind h
    cases h
  · next hfound =>
    cases h
    exact ⟨rfl, by simpa using hfound⟩

namespace Ty

variable {state after : ReadState}

/-- After an opening there are lengths. -/
theorem gives_readOpenings_ne {openings : List UInt64} (h : openings ≠ []) :
    Gives row (loop .ty readOpening openings) (· ≠ []) := by
  refine Gives.loop (· ≠ []) ?_ h
  intro lengths hlengths
  apply (gives_takeIf _).skip
  intro found
  apply Gives.ite
  · intro _
    apply gives_integer.skip
    intro length
    apply Gives.ite
    · intro _
      exact (gives_unexpected .arrayLength).stop
    · intro _
      exact (gives_expect _).skip fun _ => Gives.pure (List.cons_ne_nil _ _)
  · intro _
    exact Gives.pure hlengths

/-- Either one more length is read, or nothing is taken. -/
theorem cases_of_readOpening {openings : List UInt64} {step : List UInt64 ⊕ List UInt64}
    (h : readOpening openings state = .ok (step, after)) :
    (∃ length, step = .inl (length :: openings)) ∨ step = .inr openings ∧ after = state := by
  obtain ⟨found, middle, htake, h⟩ := ok_bind h
  cases found with
  | true =>
    left
    have hgives : Gives middle.rest (do
        let length ← integer
        if length < 0 then unexpected .arrayLength
        expectKeyword .x
        return .inl (length.toUInt64 :: openings))
        fun step : List UInt64 ⊕ List UInt64 => ∃ length, step = .inl (length :: openings) := by
      apply gives_integer.skip
      intro length
      apply Gives.ite
      · intro _
        exact (gives_unexpected .arrayLength).stop
      · intro _
        exact (gives_expect _).skip fun _ => Gives.pure ⟨_, rfl⟩
    exact (hgives _ _ _ (List.suffix_refl _) h).1
  | false =>
    cases h
    exact Or.inr ⟨rfl, (of_takeIf_eq_false htake).1⟩

/-- Without lengths nothing is taken. -/
theorem eq_of_readArrayOpenings (h : readArrayOpenings state = .ok ([], after)) : after = state := by
  rcases cases_of_loop h with hlast | ⟨openings, middle, hfirst, hmore⟩
  · rcases cases_of_readOpening hlast with ⟨_, hlast⟩ | ⟨-, rfl⟩
    · cases hlast
    · rfl
  · rcases cases_of_readOpening hfirst with ⟨length, hfirst⟩ | ⟨hfirst, -⟩
    · cases hfirst
      have hne := gives_readOpenings_ne (List.cons_ne_nil length []) _ _ _ (List.suffix_refl _) hmore
      exact absurd rfl hne.1
    · cases hfirst

theorem gives_readStars_startsVoid {ty : Ty} (h : ty.startsVoid = false) :
    Gives row (readStars ty) fun ty => ty.startsVoid = false := by
  refine Gives.loop (fun ty => ty.startsVoid = false) ?_ h
  intro target htarget
  apply (gives_takeIf _).skip
  intro found
  apply Gives.ite
  · intro _
    exact Gives.pure htarget
  · intro _
    exact Gives.pure htarget

theorem gives_readArrayClosings_startsVoid {lengths : List UInt64} {ty : Ty}
    (h : lengths ≠ [] ∨ ty.startsVoid = false) :
    Gives row (readArrayClosings lengths ty) fun ty => ty.startsVoid = false := by
  induction lengths generalizing ty with
  | nil =>
    rcases h with h | h
    · exact absurd rfl h
    · exact Gives.pure h
  | cons length lengths ih =>
    apply (gives_expect _).skip
    intro _
    apply (gives_readStars_startsVoid rfl).bind
    intro element helement
    exact ih (Or.inr helement)

/-- A type that starts with `void` is read from that word. -/
theorem not_startsVoid_of_read {ty : Ty} (h : Ty.read state = .ok (ty, after))
    (hhead : state.rest.head?.map PlacedToken.token ≠ some (.keyword .void)) :
    ty.startsVoid = false := by
  obtain ⟨lengths, opened, hopenings, h⟩ := ok_bind h
  obtain ⟨base, based, hbase, h⟩ := ok_bind h
  obtain ⟨target, starred, hstars, h⟩ := ok_bind h
  have hclosings : lengths ≠ [] ∨ target.startsVoid = false := by
    cases lengths with
    | cons length lengths => exact Or.inl (List.cons_ne_nil length lengths)
    | nil =>
      right
      obtain rfl := eq_of_readArrayOpenings hopenings
      have hvoid := (gives_readBaseAt _ _ _ _ (List.suffix_refl _) hbase).1.2.1
      have hfalse : base.startsVoid = false := by
        by_contra hstarts
        rw [Bool.not_eq_false] at hstarts
        exact hhead (hvoid hstarts)
      exact (gives_readStars_startsVoid hfalse _ _ _ (List.suffix_refl _) hstars).1
  exact (gives_readArrayClosings_startsVoid hclosings _ _ _ (List.suffix_refl _) h).1

theorem eq_int_of_intWidth? {ty : Ty} {width : UInt32} (h : ty.intWidth? = some width) :
    ty = .int width := by
  cases ty with
  | int bits =>
    cases h
    rfl
  | _ => exact absurd h (Option.some_ne_none width).symm

end Ty

/-- The type of an operand starts with `void` only if the operand does. -/
theorem Operand.not_startsVoid_of_read {operand : Operand} {state after : ReadState}
    (h : Operand.read state = .ok (operand, after))
    (hhead : state.rest.head?.map PlacedToken.token ≠ some (.keyword .void)) :
    operand.ty.startsVoid = false := by
  obtain ⟨ty, typed, hty, h⟩ := ok_bind h
  obtain ⟨_, skipped, -, h⟩ := ok_bind h
  obtain ⟨value, last, -, h⟩ := ok_bind h
  cases h
  exact Ty.not_startsVoid_of_read hty hhead

namespace Instruction

theorem gives_readBinding : Gives row readBinding fun _ => True := by
  apply gives_peek?.skip
  intro first
  apply gives_peekSecond?.skip
  intro second
  split
  · apply gives_advance.skip
    intro _
    apply gives_advance.skip
    intro _
    exact (gives_observe _).skip fun _ => Gives.pure trivial
  · exact Gives.pure trivial

theorem gives_nameResult (result : Option String) : Gives row (nameResult result) fun _ => True := by
  cases result with
  | some name => exact Gives.pure trivial
  | none => exact gives_freshNumber

theorem gives_refuseResult (result : Option String) (start : Place) :
    Gives row (refuseResult result start) fun _ => True := by
  cases result with
  | some name => exact gives_failAt _ _
  | none => exact Gives.pure trivial

theorem gives_readCallee : Gives row readCallee fun _ => True := by
  apply gives_peek?.skip
  intro token?
  split
  · exact gives_advance.skip fun _ => Gives.pure trivial
  · exact gives_unsupported _
  · exact gives_unexpected _

theorem gives_skipGroups : Gives row skipGroups fun _ => True := by
  intro state a after hrow hstep
  cases hstep
  exact ⟨trivial, (List.dropWhile_suffix _).trans hrow⟩

theorem gives_readCall (result : Option String) : Gives row (readCall result) Writable := by
  apply gives_here.skip
  intro start
  apply (gives_expect _).skip
  intro _
  apply (gives_skipWords _).skip
  intro _
  apply Ty.gives_read.bind
  intro ret hret
  apply (gives_isNext _).skip
  intro found
  apply Gives.ite
  · intro _
    exact (gives_unsupported .functionType).stop
  · intro _
    apply gives_readCallee.skip
    intro callee
    apply (gives_parenthesized Operand.gives_read).bind
    intro args hargs
    apply gives_skipGroups.skip
    intro _
    apply Gives.ite
    · intro hvoid
      apply (gives_refuseResult _ _).skip
      intro _
      exact Gives.pure ⟨by simp [hvoid], hret, hargs⟩
    · intro hvoid
      apply (gives_nameResult _).skip
      intro name
      exact Gives.pure ⟨by simp [hvoid], hret, hargs⟩

theorem gives_readReturn : Gives row readReturn Writable := by
  intro state instruction after hrow hstep
  obtain ⟨found, middle, htake, hnext⟩ := ok_bind hstep
  have hmiddle := (gives_takeIf _ _ _ _ hrow htake).2
  cases found with
  | true =>
    cases hnext
    exact ⟨fun _ hnone => absurd hnone (Option.not_mem_none _), hmiddle⟩
  | false =>
    obtain ⟨rfl, hhead⟩ := of_takeIf_eq_false htake
    have hread : (Operand.read >>= fun operand => return .ret (some operand)) middle =
        .ok (instruction, after) := hnext
    obtain ⟨operand, last, hoperand, hlast⟩ := ok_bind hread
    cases hlast
    obtain ⟨hwritable, hrest⟩ := Operand.gives_read _ _ _ hmiddle hoperand
    refine ⟨?_, hrest⟩
    rintro _ ⟨⟩
    exact ⟨hwritable, Operand.not_startsVoid_of_read hoperand hhead⟩

theorem gives_readLabel : Gives row readLabel fun _ => True :=
  (gives_expect _).skip fun _ => gives_localName

theorem gives_readBranch : Gives row readBranch Writable := by
  apply (gives_takeIf _).skip
  intro found
  apply Gives.ite
  · intro _
    exact gives_localName.skip fun _ => Gives.pure trivial
  · intro _
    apply Ty.gives_read.bind
    intro ty _
    apply Gives.ite
    · intro _
      exact (gives_unsupported (.branchOn ty)).stop
    · intro hty
      rw [not_not] at hty
      subst hty
      have hbool : Ty.bool.Sized := trivial
      apply (Value.gives_read hbool).bind
      intro condition hcondition
      apply (gives_expect _).skip
      intro _
      apply gives_readLabel.skip
      intro onTrue
      apply (gives_expect _).skip
      intro _
      apply gives_readLabel.skip
      intro onFalse
      exact Gives.pure hcondition

theorem gives_readPair (word : String) : Gives row (readPair word) fun pair =>
    pair.2.1.Writable (.int pair.1) ∧ pair.2.2.Writable (.int pair.1) := by
  apply gives_here.skip
  intro start
  apply Ty.gives_read.bind
  intro ty hty
  split
  · exact gives_unsupportedAt _ _
  · next width hwidth =>
    obtain rfl := Ty.eq_int_of_intWidth? hwidth
    apply (Value.gives_read hty).bind
    intro lhs hlhs
    apply (gives_expect _).skip
    intro _
    apply (Value.gives_read hty).bind
    intro rhs hrhs
    exact Gives.pure ⟨hlhs, hrhs⟩

theorem gives_readCompare (result : Option String) : Gives row (readCompare result) Writable := by
  apply gives_peek?.skip
  intro token?
  rcases token? with _ | token
  · exact gives_unexpected .predicate
  cases token with
  | word word =>
    dsimp only
    cases Predicate.ofMnemonic? word with
    | none => exact gives_unexpected .predicate
    | some predicate =>
      apply gives_advance.skip
      intro _
      apply (gives_readPair "icmp").bind
      rintro ⟨width, lhs, rhs⟩ hpair
      apply (gives_nameResult result).skip
      intro name
      exact Gives.pure hpair
  | _ => exact gives_unexpected .predicate

theorem gives_readSelect (result : Option String) (start : Place) :
    Gives row (readSelect result start) Writable := by
  apply Operand.gives_read.bind
  intro condition hcondition
  apply Gives.ite
  · intro _
    exact (gives_unsupportedAt start (.selectOn condition.ty)).stop
  · intro hty
    rw [not_not] at hty
    apply (gives_expect _).skip
    intro _
    apply Operand.gives_read.bind
    intro onTrue hTrue
    apply (gives_expect _).skip
    intro _
    apply Operand.gives_read.bind
    intro onFalse hFalse
    apply Gives.ite
    · intro _
      exact (gives_unsupportedAt start .selectMismatch).stop
    · intro hsame
      rw [not_not] at hsame
      apply (gives_nameResult result).skip
      intro name
      refine Gives.pure ⟨?_, hTrue, ?_⟩
      · rw [← hty]
        exact hcondition.2
      · rw [hsame]
        exact hFalse

theorem gives_readBinary (result : Option String) (op : BinaryOp) :
    Gives row (readBinary result op) Writable := by
  apply (gives_skipWords _).skip
  intro _
  apply (gives_readPair op.mnemonic).bind
  rintro ⟨width, lhs, rhs⟩ hpair
  apply (gives_nameResult result).skip
  intro name
  exact Gives.pure hpair

theorem gives_readConvert (result : Option String) (conversion : Conversion) (start : Place) :
    Gives row (readConvert result conversion start) Writable := by
  apply (gives_takeIf _).skip
  intro _
  apply Ty.gives_read.bind
  intro source hsource
  split
  · exact gives_unsupportedAt _ _
  · next sourceWidth hwidth =>
    obtain rfl := Ty.eq_int_of_intWidth? hwidth
    apply (Value.gives_read hsource).bind
    intro value hvalue
    apply (gives_expect _).skip
    intro _
    apply Ty.gives_read.bind
    intro target _
    split
    · exact gives_unsupportedAt _ _
    · apply (gives_nameResult result).skip
      intro name
      exact Gives.pure hvalue

theorem gives_readWord (result : Option String) (start : Place) (word : String) :
    Gives row (readWord result start word) Writable := by
  apply Gives.ite
  · intro _
    apply gives_advance.skip
    intro _
    apply (gives_isNext _).skip
    intro found
    apply Gives.ite
    · intro _
      exact gives_readCall result
    · intro _
      exact gives_unexpected .call
  · intro _
    split
    · exact gives_advance.skip fun _ => gives_readBinary result _
    · exact gives_advance.skip fun _ => gives_readConvert result _ start
    · exact gives_unsupported _

theorem withoutAttachments_suffix (tokens : List PlacedToken) :
    withoutAttachments tokens <:+ tokens := by
  induction tokens using withoutAttachments.induct with
  | case1 span₁ name span₂ name' span₃ rest ih =>
    rw [withoutAttachments]
    exact ih.trans ⟨[_, _, _], rfl⟩
  | case2 span₁ name span₂ rest hrest ih =>
    rw [withoutAttachments]
    · exact ih.trans ⟨[_, _], rfl⟩
    · exact hrest
  | case3 tokens hthree htwo =>
    rw [withoutAttachments]
    · exact hthree
    · exact htwo

theorem gives_skipAttachments : Gives row skipAttachments fun _ => True := by
  intro state a after hrow hstep
  cases hstep
  exact ⟨trivial, (withoutAttachments_suffix _).trans hrow⟩

theorem gives_readBody (result : Option String) : Gives row (readBody result) Writable := by
  apply gives_here.skip
  intro start
  apply gives_peek?.skip
  intro token?
  rcases token? with _ | token
  · exact gives_unexpected .instruction
  cases token with
  | keyword word =>
    cases word
    case call => exact gives_readCall result
    case ret =>
      apply (gives_refuseResult result start).skip
      intro _
      exact gives_advance.skip fun _ => gives_readReturn
    case br =>
      apply (gives_refuseResult result start).skip
      intro _
      exact gives_advance.skip fun _ => gives_readBranch
    case icmp => exact gives_advance.skip fun _ => gives_readCompare result
    case select => exact gives_advance.skip fun _ => gives_readSelect result start
    all_goals exact gives_unexpected .instruction
  | word word => exact gives_readWord result start word
  | _ => exact gives_unexpected .instruction

/-- Instructions that are read can be written. -/
theorem gives_read : Gives row Instruction.read Writable := by
  apply gives_readBinding.skip
  intro result
  apply (gives_readBody result).bind
  intro instruction hinstruction
  exact gives_skipAttachments.skip fun _ => Gives.pure hinstruction

end Instruction

end QuantumIR
