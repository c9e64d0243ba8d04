import QuantumIR.Proofs.Accepted.Literals
import QuantumIR.Proofs.Bounded.Operands

/-!
The bounded readings of instructions follow the readings of them. The bounded ones hand the number
for the next thing without a name on, where the others keep it in their state. An instruction gains
three turns: four for its tokens, less the turn that looks for attached metadata.
-/

namespace QuantumIR.Bounded

variable {α β : Type} {page : Page} {cursor : Cursor} {number credit : Nat}
  {result? : Option String} {result : α → Nat → β → Cursor → Prop}

/-- Only the reading changes its state. -/
theorem Follows.observe {name : String} {next : Unit → Reading α} {bounded : Bounded β}
    (h : Follows page cursor (Bounded.observe number name) (next ()) bounded result) :
    Follows page cursor number (Reading.observe name >>= next) bounded result := by
  unfold Follows at h ⊢
  have hobserve : Reading.observe name (page.stateAt cursor.place number) =
      .ok ((), page.stateAt cursor.place (Bounded.observe number name)) := by
    rw [Reading.observe, Bounded.observe]
    cases Text.count? name.toList <;> rfl
  change Agree page cursor result
    (Except.bind (Reading.observe name _) fun p => next p.1 p.2) _
  rw [hobserve]
  exact h

theorem Follows.freshNumber {next : String → Reading α} {bounded : Bounded β}
    (h : Follows page cursor (number + 1) (next (toString number)) bounded result) :
    Follows page cursor number (Reading.freshNumber >>= next) bounded result :=
  h

theorem Follows.nameResult {next : String → Reading α} {bounded : Bounded β}
    (h : Follows page cursor (Bounded.nameResult number result?).2
      (next (Bounded.nameResult number result?).1) bounded result) :
    Follows page cursor number (Instruction.nameResult result? >>= next) bounded result := by
  cases result? with
  | none => exact h
  | some name => exact h

theorem follows_readBinding (hc : Has page credit cursor) :
    Follows page cursor number Instruction.readBinding (readBinding number)
      (Numbered page credit) := by
  apply Follows.peek?
  intro first? hfirst
  apply Follows.peekSecond?
  intro second? hsecond
  have hnone : Follows page cursor number (pure none) (pure (none, number))
      (Numbered page credit : Option String → Nat → Option String × Nat → Cursor → Prop) :=
    Follows.pure ⟨rfl, hc⟩
  cases first? with
  | none => exact hnone
  | some first =>
    cases first with
    | localName name =>
      cases second? with
      | none => exact hnone
      | some second =>
        cases second with
        | mark mark =>
          cases mark with
          | equals =>
            apply (follows_advance_place hfirst hc).bind
            rintro _ _ _ cursor₁ ⟨hplace, -, rfl, hc₁⟩
            rw [← hplace] at hsecond
            apply (follows_advance hsecond hc₁).andThen
            intro _ cursor₂ hc₂
            apply Follows.observe
            exact Follows.pure ⟨rfl, hc₂.mono (by omega)⟩
          | _ => exact hnone
        | _ => exact hnone
    | _ => exact hnone

theorem Follows.refuseResult {start : Nat} {next : Unit → Reading α} {after : Unit → Bounded β}
    (h : Follows page cursor number (next ()) (after ()) result) :
    Follows page cursor number (Instruction.refuseResult result? (page.placeOf start) >>= next)
      (Bounded.refuseResult result? start >>= after) result := by
  cases result? with
  | none => exact h
  | some name => exact (follows_failAt rfl (by nofun)).stop

theorem follows_readCallee (hc : Has page credit cursor) :
    Follows page cursor number Instruction.readCallee readCallee
      (Same page number (credit + 2)) := by
  apply Follows.peek?
  intro token? htoken
  cases token? with
  | none => exact follows_unexpected _
  | some token =>
    cases token with
    | globalName name =>
      exact (follows_advance htoken hc).andThen fun _ _ hc' => Follows.pure ⟨rfl, rfl, hc'⟩
    | localName name => exact follows_unsupported _
    | _ => exact follows_unexpected _

theorem follows_skipGroups (hc : Has page (credit + 1) cursor) :
    Follows page cursor number Instruction.skipGroups (skipWhile isGroup)
      (Same page number credit) :=
  follows_skipWhile (fun _ => rfl) hc

theorem follows_readArgument (hc : Has page credit cursor) :
    Follows page cursor number Operand.read (readArgument number) (Numbered page credit) := by
  rw [← bind_pure Operand.read]
  apply (follows_readOperand hc).andThen
  intro operand cursor' hc'
  exact Follows.pure ⟨rfl, hc'.mono (by omega)⟩

theorem follows_readCall (hc : Has page credit cursor) :
    Follows page cursor number (Instruction.readCall result?) (readCall result? number)
      (Numbered page (credit + 4)) := by
  apply Follows.here
  apply (follows_expect hc).andThen
  intro _ cursor₁ hc
  apply (follows_skipWords hc).andThen
  intro _ cursor₁ hc
  apply (follows_readTy hc).andThen
  intro ret cursor₁ hc
  apply Follows.ifNext
  · intro _
    exact (follows_unsupported _).stop
  apply (follows_readCallee hc).andThen
  intro callee cursor₁ hc
  apply (follows_parenthesized (fun _ _ _ => follows_readArgument) hc).andThenNumbered
  intro args number' cursor₁ hc
  apply (follows_skipGroups hc).andThen
  intro _ cursor₁ hc
  apply Follows.ite
  · intro _
    apply Follows.refuseResult
    exact Follows.pure ⟨rfl, hc.mono (by omega)⟩
  · intro _
    apply Follows.nameResult
    exact Follows.pure ⟨rfl, hc.mono (by omega)⟩

theorem follows_readReturn (hc : Has page credit cursor) :
    Follows page cursor number Instruction.readReturn readReturn
      (Same page number (credit + 2)) := by
  apply Follows.ifTake hc
  · intro _ cursor' hc'
    exact Follows.pure ⟨rfl, rfl, hc'⟩
  · intro _
    apply (follows_readOperand hc).andThen
    intro operand cursor' hc'
    exact Follows.pure ⟨rfl, rfl, hc'⟩

theorem follows_readTarget (hc : Has page credit cursor) :
    Follows page cursor number Instruction.readLabel readTarget (Same page number credit) := by
  apply (follows_expect hc).andThen
  intro _ cursor' hc'
  exact (follows_localName hc').same (by omega)

theorem follows_readBranch (hc : Has page credit cursor) :
    Follows page cursor number Instruction.readBranch readBranch
      (Same page number (credit + 2)) := by
  apply Follows.ifTake hc
  · intro _ cursor' hc'
    apply (follows_localName hc').andThen
    intro label cursor' hc'
    exact Follows.pure ⟨rfl, rfl, hc'.mono (by omega)⟩
  · intro _
    apply (follows_readTy hc).andThen
    intro ty cursor hc
    apply Follows.ite
    · intro _
      exact (follows_unsupported _).stop
    · intro _
      apply (follows_readValue hc).andThen
      intro condition cursor hc
      apply (follows_expect hc).andThen
      intro _ cursor hc
      apply (follows_readTarget hc).andThen
      intro onTrue cursor hc
      apply (follows_expect hc).andThen
      intro _ cursor hc
      apply (follows_readTarget hc).andThen
      intro onFalse cursor hc
      exact Follows.pure ⟨rfl, rfl, hc.mono (by omega)⟩

theorem follows_readPair {word : String} (hc : Has page credit cursor) :
    Follows page cursor number (Instruction.readPair word) (readPair word)
      (Same page number (credit + 3)) := by
  apply Follows.here
  apply (follows_readTy hc).andThen
  intro ty cursor₁ hc
  cases ty.intWidth? with
  | none => exact follows_failAt rfl (by nofun)
  | some width =>
    apply (follows_readValue hc).andThen
    intro lhs cursor₁ hc
    apply (follows_expect hc).andThen
    intro _ cursor₁ hc
    apply (follows_readValue hc).andThen
    intro rhs cursor₁ hc
    exact Follows.pure ⟨rfl, rfl, hc.mono (by omega)⟩

theorem follows_readCompare (hc : Has page credit cursor) :
    Follows page cursor number (Instruction.readCompare result?) (readCompare result? number)
      (Numbered page (credit + 2)) := by
  apply Follows.peek?
  intro token? htoken
  cases token? with
  | none => exact follows_unexpected _
  | some token =>
    cases token with
    | word word =>
      dsimp only
      cases Predicate.ofMnemonic? word with
      | none => exact follows_unexpected _
      | some predicate =>
        apply (follows_advance htoken hc).andThen
        intro _ cursor hc
        apply (follows_readPair hc).andThen
        intro pair cursor hc
        apply Follows.nameResult
        exact Follows.pure ⟨rfl, hc.mono (by omega)⟩
    | _ => exact follows_unexpected _

theorem follows_readSelect {start : Nat} (hc : Has page credit cursor) :
    Follows page cursor number (Instruction.readSelect result? (page.placeOf start))
      (readSelect result? number start) (Numbered page (credit + 2)) := by
  apply (follows_readOperand hc).andThen
  intro condition cursor hc
  apply Follows.ite
  · intro _
    exact (follows_failAt rfl (by nofun)).stop
  intro _
  apply (follows_expect hc).andThen
  intro _ cursor hc
  apply (follows_readOperand hc).andThen
  intro onTrue cursor hc
  apply (follows_expect hc).andThen
  intro _ cursor hc
  apply (follows_readOperand hc).andThen
  intro onFalse cursor hc
  apply Follows.ite
  · intro _
    exact (follows_failAt rfl (by nofun)).stop
  intro _
  apply Follows.nameResult
  exact Follows.pure ⟨rfl, hc.mono (by omega)⟩

theorem follows_readBinary {op : BinaryOp} (hc : Has page (credit + 1) cursor) :
    Follows page cursor number (Instruction.readBinary result? op) (readBinary result? number op)
      (Numbered page (credit + 3)) := by
  apply (follows_skipWords hc).andThen
  intro _ cursor hc
  apply (follows_readPair hc).andThen
  intro pair cursor hc
  apply Follows.nameResult
  exact Follows.pure ⟨rfl, hc⟩

theorem follows_readConvert {conversion : Conversion} {start : Nat} (hc : Has page credit cursor) :
    Follows page cursor number (Instruction.readConvert result? conversion (page.placeOf start))
      (readConvert result? number conversion start) (Numbered page (credit + 2)) := by
  apply Follows.takeAny hc
  intro _ cursor hc
  apply (follows_readTy hc).andThen
  intro source cursor hc
  cases source.intWidth? with
  | none => exact follows_failAt rfl (by nofun)
  | some sourceWidth =>
    apply (follows_readValue hc).andThen
    intro value cursor hc
    apply (follows_expect hc).andThen
    intro _ cursor hc
    apply (follows_readTy hc).andThen
    intro target cursor hc
    dsimp only
    cases target.intWidth? with
    | none => exact follows_failAt rfl (by nofun)
    | some targetWidth =>
      apply Follows.nameResult
      exact Follows.pure ⟨rfl, hc.mono (by omega)⟩

theorem follows_readWord {start : Nat} {word : String}
    (htoken : page.token? cursor.place = some (.word word)) (hc : Has page credit cursor) :
    Follows page cursor number (Instruction.readWord result? (page.placeOf start) word)
      (readWord result? number start word) (Numbered page (credit + 4)) := by
  apply Follows.ite
  · intro _
    apply (follows_advance htoken hc).andThen
    intro _ cursor hc
    apply Follows.ifNext
    · intro _
      exact (follows_readCall hc).numbered (by omega)
    · exact follows_unexpected _
  · intro _
    cases BinaryOp.ofMnemonic? word with
    | some op =>
      apply (follows_advance htoken hc).andThen
      intro _ cursor hc
      have hc' : Has page (credit + 1 + 1) cursor := hc
      exact (follows_readBinary hc').numbered (by omega)
    | none =>
      cases Conversion.ofMnemonic? word with
      | some conversion =>
        apply (follows_advance htoken hc).andThen
        intro _ cursor hc
        exact (follows_readConvert hc).numbered (by omega)
      | none => exact follows_unsupported _

theorem exists_of_isMetadata {token? : Option Token} (h : isMetadata token?) :
    ∃ name, token? = some (.metadata name) := by
  match token?, h with
  | some (.metadata name), _ => exact ⟨name, rfl⟩

/-- Attached metadata is taken one piece at a time. -/
theorem skipAttachments_eq : Instruction.skipAttachments =
    Reading.peek? >>= fun comma? => Reading.peekSecond? >>= fun metadata? =>
      if comma? = some (.mark .comma) ∧ isMetadata metadata? then
        Reading.advance >>= fun _ => Reading.advance >>= fun _ => Reading.peek? >>= fun more? =>
          if isMetadata more? then Reading.advance >>= fun _ => Instruction.skipAttachments
          else Instruction.skipAttachments
      else pure () := by
  funext ⟨rest, number⟩
  rw [Instruction.skipAttachments, Instruction.withoutAttachments.eq_def]
  dsimp only
  split
  · rfl
  · next rest hother =>
    have hnot : ¬isMetadata (rest.head?.map PlacedToken.token) := by
      intro hmeta
      obtain ⟨name, hname⟩ := exists_of_isMetadata hmeta
      obtain ⟨span, hrest⟩ := @Reading.exists_eq_cons ⟨rest, number⟩ _ hname
      exact hother name span rest.tail hrest
    have hlast : (if isMetadata (rest.head?.map PlacedToken.token) then
        Reading.advance >>= fun _ => Instruction.skipAttachments
        else Instruction.skipAttachments : Reading Unit) = Instruction.skipAttachments :=
      if_neg hnot
    exact (congrFun hlast ⟨rest, number⟩).symm
  · next hthree htwo =>
    have hnot : ¬(rest.head?.map PlacedToken.token = some (.mark .comma) ∧
        isMetadata (rest.tail.head?.map PlacedToken.token)) := by
      rintro ⟨hcomma, hmeta⟩
      obtain ⟨name, hname⟩ := exists_of_isMetadata hmeta
      obtain ⟨span, hrest⟩ := @Reading.exists_eq_cons ⟨rest, number⟩ _ hcomma
      obtain ⟨span', htail⟩ := @Reading.exists_eq_cons ⟨rest.tail, number⟩ _ hname
      exact htwo span name span' rest.tail.tail (hrest.trans (congrArg _ htail))
    have hlast : ∀ step : Reading Unit, (if rest.head?.map PlacedToken.token = some (.mark .comma) ∧
        isMetadata (rest.tail.head?.map PlacedToken.token) then step else pure () : Reading Unit) =
        pure () := fun _ => if_neg hnot
    exact (congrFun (hlast _) ⟨rest, number⟩).symm

theorem follows_skipAttachments (hc : Has page (credit + 1) cursor) :
    Follows page cursor number Instruction.skipAttachments skipAttachments
      (Same page number credit) := by
  refine Follows.answer (fun _ => Instruction.skipAttachments) ?_ hc
  intro _ cursor again hc hagain
  rw [skipAttachments_eq, skipAttachment]
  simp only [bind_assoc]
  apply Follows.peek?
  intro comma? hcomma
  apply Follows.peekSecond?
  intro metadata? hmetadata
  split
  · next hattached =>
    obtain ⟨rfl, hmeta⟩ := hattached
    obtain ⟨name, rfl⟩ := exists_of_isMetadata hmeta
    simp only [bind_assoc]
    apply (follows_advance_place hcomma hc).bindLe
    rintro _ _ _ cursor₁ - hle₁ ⟨hplace, -, rfl, hc₁⟩
    rw [← hplace] at hmetadata
    apply (follows_advance hmetadata hc₁).bindLe
    rintro _ _ _ cursor₂ - hle₂ ⟨-, rfl, hc₂⟩
    apply Follows.peek?
    intro more? hmore
    split
    · next hmoreMeta =>
      obtain ⟨name', rfl⟩ := exists_of_isMetadata hmoreMeta
      simp only [bind_assoc, pure_bind]
      apply (follows_advance hmore hc₂).bindLe
      rintro _ _ _ cursor₃ - hle₃ ⟨-, rfl, hc₃⟩
      exact hagain () cursor₃ (by omega) (hc₃.mono (by omega))
    · simp only [pure_bind]
      exact hagain () cursor₂ (by omega) (hc₂.mono (by omega))
  · exact Follows.pure ⟨rfl, rfl, hc⟩

theorem follows_readInstructionBody (hc : Has page credit cursor) :
    Follows page cursor number (Instruction.readBody result?) (readInstructionBody result? number)
      (Numbered page (credit + 4)) := by
  apply Follows.here
  apply Follows.peek?
  intro token? htoken
  cases token? with
  | none => exact follows_unexpected _
  | some token =>
    cases token with
    | keyword word =>
      cases word with
      | call => exact follows_readCall hc
      | ret =>
        apply Follows.refuseResult
        rw [← bind_pure Instruction.readReturn]
        apply (follows_advance htoken hc).andThen
        intro _ cursor hc
        apply (follows_readReturn hc).andThen
        intro instruction cursor hc
        exact Follows.pure ⟨rfl, hc⟩
      | br =>
        apply Follows.refuseResult
        rw [← bind_pure Instruction.readBranch]
        apply (follows_advance htoken hc).andThen
        intro _ cursor hc
        apply (follows_readBranch hc).andThen
        intro instruction cursor hc
        exact Follows.pure ⟨rfl, hc⟩
      | icmp =>
        apply (follows_advance htoken hc).andThen
        intro _ cursor hc
        exact follows_readCompare hc
      | select =>
        apply (follows_advance htoken hc).andThen
        intro _ cursor hc
        exact follows_readSelect hc
      | _ => exact follows_unexpected _
    | word word => exact follows_readWord htoken hc
    | _ => exact follows_unexpected _

theorem follows_readInstruction (hc : Has page credit cursor) :
    Follows page cursor number Instruction.read (readInstruction number)
      (Numbered page (credit + 3)) := by
  apply (follows_readBinding hc).andThenNumbered
  intro result? number' cursor hc
  apply (follows_readInstructionBody hc).andThenNumbered
  intro instruction number' cursor hc
  apply (follows_skipAttachments hc).andThen
  intro _ cursor hc
  exact Follows.pure ⟨rfl, hc⟩

end QuantumIR.Bounded
