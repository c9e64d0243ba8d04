import QuantumIR.Proofs.Building.Change

/-!
Every operation of a builder is made of small changes, however it ends, and so is all that code can
do with a builder by calling such operations.
-/

namespace QuantumIR

variable {α β : Type}

namespace Building

open Builder

variable {additions : Additions}

/-- What a building step may answer. -/
def Answers (action : Building α) (a : α) : Prop :=
  ∃ builder : Builder, builder.answer action = .ok a

theorem Answers.of_pure {a b : α} (h : Answers (Pure.pure a) b) : b = a := by
  obtain ⟨builder, h⟩ := h
  exact (Except.ok.inj h).symm

theorem Answers.of_bind {action : Building α} {next : α → Building β} {b : β}
    (h : Answers (action >>= next) b) : ∃ a, Answers action a ∧ Answers (next a) b := by
  obtain ⟨builder, h⟩ := h
  rw [answer_bind] at h
  cases hanswer : builder.answer action with
  | ok a =>
    rw [hanswer] at h
    exact ⟨a, ⟨builder, hanswer⟩, _, h⟩
  | error error =>
    rw [hanswer] at h
    cases h

/-- A building step does nothing to a builder but small changes, however it ends. -/
def Moves (additions : Additions) (action : Building α) : Prop :=
  ∀ builder, Later additions builder (builder.after action)

namespace Moves

theorem pure (a : α) : Moves additions (Pure.pure a : Building α) :=
  fun _ => .refl

theorem throw (error : BuildError) :
    Moves additions (MonadExcept.throw error : Building α) :=
  fun _ => .refl

/-- What comes next has to be made of small changes for what was answered only. -/
theorem bind_answers {action : Building α} {next : α → Building β} (h : Moves additions action)
    (hnext : ∀ a, Answers action a → Moves additions (next a)) :
    Moves additions (action >>= next) := by
  intro builder
  rw [after_bind]
  cases hanswer : builder.answer action with
  | ok a => exact (h builder).trans (hnext a ⟨builder, hanswer⟩ _)
  | error error => exact h builder

theorem bind {action : Building α} {next : α → Building β} (h : Moves additions action)
    (hnext : ∀ a, Moves additions (next a)) : Moves additions (action >>= next) :=
  h.bind_answers fun a _ => hnext a

theorem forM {items : List α} {action : α → Building Unit}
    (h : ∀ item, Moves additions (action item)) : Moves additions (items.forM action) := by
  induction items with
  | nil => exact .pure ()
  | cons item items ih => exact (h item).bind fun _ => ih

theorem get : Moves additions (MonadState.get : Building Builder) :=
  fun _ => .refl

theorem check (test : Builder → Except BuildError α) :
    Moves additions (Building.check test) := by
  intro builder
  change Later additions builder (builder.after (Building.ofExcept (test builder)))
  cases test builder with
  | ok a => exact .refl
  | error error => exact .refl

theorem ite {c : Prop} [Decidable c] {action action' : Building α}
    (h : c → Moves additions action) (h' : ¬c → Moves additions action') :
    Moves additions (if c then action else action') := by
  split
  · next hc => exact h hc
  · next hc => exact h' hc

end Moves

theorem moves_ensureOpen : Moves additions ensureOpen := by
  intro builder
  have hbind := after_ensureOpen_bind builder (Pure.pure : Unit → Building Unit)
  rw [bind_pure] at hbind
  rw [hbind]
  split <;> exact .refl

/-- An instruction that a builder accepts is added unless the current block is closed. -/
theorem later_push {builder : Builder} {instruction : Instruction}
    (hstands : builder.Stands instruction) (hallowed : additions.instruction instruction)
    (hresult : instruction.result? = none) :
    Later additions builder (builder.after (push instruction)) := by
  rw [after_push]
  split
  · exact .refl
  · next hopen =>
    refine .single ?_
    have haccepts : builder.Accepts instruction :=
      ⟨hstands, fun name hname => by rw [hresult] at hname; cases hname⟩
    have hchange : Change additions builder _ := Change.push builder instruction
      ((Bool.not_eq_true _).mp hopen) haccepts hallowed
    rw [numberAfter, hresult] at hchange
    exact hchange

theorem moves_pushNamed {make : String → Instruction}
    (hstands : ∀ builder : Builder, builder.Stands (make builder.nextName))
    (hallowed : ∀ name, additions.instruction (make name))
    (hresult : ∀ name, (make name).result? = some name) :
    Moves additions (pushNamed make) := by
  intro builder
  rw [pushNamed, after_freshName_bind, after_push_bind]
  split
  · exact .single (.number builder)
  · next hopen =>
    refine .single ?_
    have haccepts : builder.Accepts (make builder.nextName) := by
      refine ⟨hstands builder, fun name hname => ?_⟩
      rw [hresult] at hname
      exact (Option.some.inj hname).symm
    have hchange : Change additions builder _ := Change.push builder
      (make builder.nextName) ((Bool.not_eq_true _).mp hopen) haccepts (hallowed _)
    rw [numberAfter, hresult] at hchange
    exact hchange

/-- Declaring a function adds its declaration or changes nothing. -/
theorem later_declare {builder : Builder} {name : String} {signature : Signature}
    (hname : name ≠ entryName) (hnew : builder.declarations.find? (·.name = name) = none)
    (h : additions.declaration name signature) : Later additions builder
      { builder with declarations := builder.declarations ++ [declarationOf name signature] } := by
  refine .single (.declare builder name signature hname ?_ h)
  intro hmem
  obtain ⟨function, hfunction, hsame⟩ := List.mem_map.mp hmem
  exact List.find?_eq_none.mp hnew function hfunction (by simpa using hsame)

theorem moves_declare {name : String} {signature : Signature} (h : additions.declaration name signature) :
    Moves additions (declare name signature) := by
  intro builder
  have hbind := after_declare_bind builder name signature (Pure.pure : Unit → Building Unit)
  rw [bind_pure] at hbind
  rw [hbind]
  split
  · exact .refl
  · next hname =>
    split
    · split <;> exact .refl
    · next hnew => exact later_declare hname hnew h

/-- What a call does once its function is declared: it is added, and its value gets a number. -/
theorem later_addCall {builder : Builder} {name : String} {ret : Ty} {args : List Operand}
    (hopen : builder.isTerminated = false)
    (hargs : ∀ arg ∈ args, builder.checkOperand arg = .ok ())
    (hdeclared : ∃ known ∈ builder.declarations, known.name = name ∧ known.ret = ret ∧
      known.params.map Param.ty = args.map Operand.ty)
    (hallowed : ∀ result, additions.instruction (.call result ret name args)) :
    Later additions builder (builder.after do
      let result ← if ret.isVoid then pure none else some <$> freshName
      push (.call result ret name args)
      return result.map Value.reg) := by
  cases hvoid : ret.isVoid with
  | true =>
    have hchange : Change additions builder _ := Change.push builder
      (.call none ret name args) hopen
      ⟨⟨by simp [hvoid], hargs, hdeclared⟩, fun _ h => nomatch h⟩ (hallowed none)
    simp only [if_true, pure_bind, after_push_bind, hopen]
    exact .single hchange
  | false =>
    have hchange : Change additions builder _ := Change.push builder
      (.call (some builder.nextName) ret name args) hopen
      ⟨⟨by simp [hvoid], hargs, hdeclared⟩, fun _ h => (Option.some.inj h).symm⟩ (hallowed _)
    have hopen' : { builder with nextValue := builder.nextValue + 1 }.isTerminated = false := hopen
    simp only [Bool.false_eq_true, if_false, bind_map_left, after_freshName_bind, after_push_bind,
      hopen']
    exact .single hchange

theorem moves_call {name : String} {ret : Ty} {args : List Operand}
    (hallowed : ∀ result, additions.instruction (.call result ret name args))
    (hdeclares : additions.declaration name ⟨ret, args.map Operand.ty⟩) :
    Moves additions (call name ret args) := by
  intro builder
  rw [call, after_ensureOpen_bind]
  split
  · exact .refl
  rw [after_checkOperands_bind]
  split
  swap
  · exact .refl
  next hopen hargs =>
  rw [after_declare_bind]
  split
  · exact .refl
  next hname =>
  split
  · next known hknown =>
    split
    · next hsame =>
      refine later_addCall ((Bool.not_eq_true _).mp hopen) hargs ?_ hallowed
      rw [Signature.mk.injEq] at hsame
      have hfound : known.name = name := by simpa using List.find?_some hknown
      exact ⟨known, List.mem_of_find?_eq_some hknown, hfound, hsame⟩
    · exact .refl
  · next hnew =>
    refine (later_declare hname hnew hdeclares).trans ?_
    refine later_addCall ((Bool.not_eq_true _).mp hopen) hargs ?_ hallowed
    exact ⟨declarationOf name ⟨ret, args.map Operand.ty⟩, List.mem_append_right _
      (List.mem_singleton_self _), rfl, rfl, declarationOf_params _ _⟩

/-- The arguments of a call to the catalog, with the types of its parameters. -/
def typedArgs (callee : Intrinsic) (args : List Value) : List Operand :=
  (callee.signature.params.zip args).map fun (ty, value) => ⟨ty, value⟩

theorem moves_intrinsic {callee : Intrinsic} {args : List Value}
    (hallowed : args.length = callee.signature.params.length → ∀ result,
      additions.instruction (.call result callee.signature.ret callee.name (typedArgs callee args)))
    (hdeclares : additions.declaration callee.name callee.signature) :
    Moves additions (intrinsic callee args) := by
  rw [intrinsic]
  by_cases hlength : args.length = callee.signature.params.length
  · have hty : (typedArgs callee args).map Operand.ty = callee.signature.params := by
      rw [typedArgs, List.map_map]
      exact List.map_fst_zip (by omega)
    have hdeclares' : additions.declaration callee.name
        ⟨callee.signature.ret, (typedArgs callee args).map Operand.ty⟩ := by
      rw [hty]
      exact hdeclares
    simp only [hlength, ne_eq, not_true_eq_false, if_false]
    exact moves_call (hallowed hlength) hdeclares'
  · simp only [hlength, ne_eq, not_false_eq_true, if_true]
    exact fun _ => .refl

theorem moves_perform {callee : Intrinsic} {args : List Value}
    (h : Moves additions (intrinsic callee args)) :
    Moves additions (perform callee args) :=
  h.bind fun _ => .pure ()

theorem moves_evaluate {callee : Intrinsic} {args : List Value}
    (h : Moves additions (intrinsic callee args)) :
    Moves additions (evaluate callee args) := by
  apply h.bind
  rintro (_ | value)
  · exact .throw _
  · exact .pure value

/-- The value of a call is a register. -/
theorem Answers.call {name : String} {ret : Ty} {args : List Operand} {value : Value}
    (h : Answers (call name ret args) (some value)) : ∃ register, value = .reg register := by
  obtain ⟨_, -, h⟩ := h.of_bind
  obtain ⟨_, -, h⟩ := h.of_bind
  obtain ⟨_, -, h⟩ := h.of_bind
  -- Whether the value gets a number or there is none, what follows is the same.
  have hnamed : ∃ result : Option String, some value = result.map Value.reg := by
    dsimp only at h
    split at h
    all_goals
      obtain ⟨result, -, h⟩ := h.of_bind
      obtain ⟨_, -, h⟩ := h.of_bind
      exact ⟨result, h.of_pure⟩
  obtain ⟨result, hresult⟩ := hnamed
  obtain ⟨register, -, hvalue⟩ := Option.map_eq_some_iff.mp hresult.symm
  exact ⟨register, hvalue.symm⟩

theorem Answers.evaluate {callee : Intrinsic} {args : List Value} {value : Value}
    (h : Answers (evaluate callee args) value) : ∃ register, value = .reg register := by
  obtain ⟨found, hfound, h⟩ := h.of_bind
  cases found with
  | some found =>
    rw [h.of_pure]
    rw [intrinsic] at hfound
    split at hfound
    · obtain ⟨_, hthrow⟩ := hfound
      cases hthrow
    · exact hfound.call
  | none =>
    obtain ⟨_, hthrow⟩ := h
    cases hthrow

theorem moves_addString {text : String} (h : additions.text text) :
    Moves additions (addString text) :=
  fun builder => .single (.string builder text h)

/-- The labels to try differ from each other. -/
theorem candidate_injective (label : String) : Function.Injective (candidate label) := by
  have hne : ∀ n : Nat, label ≠ label ++ toString n := by
    intro n heq
    have hlength := congrArg (fun text => text.toList.length) heq
    rw [String.toList_append, List.length_append, Text.toList_toString] at hlength
    have := List.length_pos_iff.mpr (Text.toDigits_ne_nil n)
    omega
  intro m n h
  rw [candidate, candidate] at h
  split at h
  · next hm =>
    split at h
    · next hn => rw [hm, hn]
    · exact absurd h (hne n)
  · split at h
    · exact absurd h.symm (hne m)
    · exact Nat.repr_injective ((String.append_right_inj label).mp h)

theorem block?_isNone_iff {builder : Builder} {label : String} :
    (builder.block? label).isNone ↔ label ∉ builder.labels := by
  simp [Builder.block?, Builder.labels]

/-- Of one more candidate than there are labels, one is free. -/
theorem exists_free_candidate (builder : Builder) (wanted : String) :
    ∃ attempt, attempt ≤ builder.labels.length ∧ candidate wanted attempt ∉ builder.labels := by
  by_contra! hused
  have hnodup : ((List.range (builder.labels.length + 1)).map (candidate wanted)).Nodup :=
    List.nodup_range.map (candidate_injective wanted)
  have hsubset : (List.range (builder.labels.length + 1)).map (candidate wanted) ⊆
      builder.labels := by
    intro name hname
    obtain ⟨attempt, hattempt, rfl⟩ := List.mem_map.mp hname
    exact hused attempt (Nat.lt_succ_iff.mp (List.mem_range.mp hattempt))
  have hle := (hnodup.subperm hsubset).length_le
  rw [List.length_map, List.length_range] at hle
  exact Nat.not_succ_le_self _ hle

/-- A label that is looked for is found: it is the first candidate that is free. -/
theorem exists_freeLabel_eq (builder : Builder) (wanted : String) :
    ∃ attempt, attempt ≤ builder.labels.length ∧
      builder.freeLabel wanted = candidate wanted attempt ∧
      candidate wanted attempt ∉ builder.labels ∧
      ∀ earlier < attempt, candidate wanted earlier ∈ builder.labels := by
  classical
  have hexists := exists_free_candidate builder wanted
  obtain ⟨hle, hfree⟩ := Nat.find_spec hexists
  have hused : ∀ earlier < Nat.find hexists, candidate wanted earlier ∈ builder.labels := by
    intro earlier hearlier
    by_contra hmem
    exact Nat.find_min hexists hearlier ⟨hearlier.le.trans hle, hmem⟩
  refine ⟨Nat.find hexists, hle, ?_, hfree, hused⟩
  have hfound : (List.range (builder.blocks.length + 1)).find?
      (fun attempt => (builder.block? (candidate wanted attempt)).isNone) =
        some (Nat.find hexists) := by
    rw [List.find?_range_eq_some]
    refine ⟨block?_isNone_iff.mpr hfree, ?_, ?_⟩
    · rw [List.mem_range, ← builder.blocks.length_map Block.label]
      exact Nat.lt_succ_of_le hle
    · intro earlier hearlier
      rw [Bool.not_eq_true', ← Bool.not_eq_true, block?_isNone_iff, not_not]
      exact hused earlier hearlier
  have hcandidate : ((List.range (builder.blocks.length + 1)).map (candidate wanted)).find?
      (fun name => (builder.block? name).isNone) = some (candidate wanted (Nat.find hexists)) := by
    rw [List.find?_map]
    exact congrArg (Option.map (candidate wanted)) hfound
  rw [freeLabel, hcandidate]
  rfl

theorem freeLabel_not_mem (builder : Builder) (label : String) :
    builder.freeLabel label ∉ builder.labels := by
  obtain ⟨attempt, -, hlabel, hfree, -⟩ := exists_freeLabel_eq builder label
  rwa [hlabel]

theorem moves_appendBlock (label : String) : Moves additions (appendBlock label) :=
  fun builder => .single (.block builder _ (freeLabel_not_mem builder _))

theorem moves_position (label : String) : Moves additions (position label) := by
  intro builder
  rw [position, after_get_bind]
  cases hblock : (builder.block? label).isNone with
  | true => exact .refl
  | false =>
    refine .single (.position builder label ?_)
    by_contra hmem
    rw [block?_isNone_iff.mpr hmem] at hblock
    cases hblock

/-- A branch is added after its target was found. -/
theorem after_checkTarget_bind (builder : Builder) (label : String) (next : Unit → Building α) :
    builder.after (checkTarget label >>= next) =
      if label ∈ builder.labels then builder.after (next ()) else builder := by
  rw [checkTarget, bind_assoc, after_get_bind]
  cases hblock : (builder.block? label).isNone with
  | true =>
    rw [if_neg (block?_isNone_iff.mp hblock)]
    rfl
  | false =>
    have hmem : label ∈ builder.labels := by
      by_contra hmem
      rw [block?_isNone_iff.mpr hmem] at hblock
      cases hblock
    rw [if_pos hmem]
    rfl

theorem moves_branch {target : String} (hallowed : additions.instruction (.branch target)) :
    Moves additions (branch target) := by
  intro builder
  rw [branch, after_checkTarget_bind]
  split
  · next hmem => exact later_push hmem hallowed rfl
  · exact .refl

theorem moves_branchIf {condition : Value} {onTrue onFalse : String}
    (hallowed : additions.instruction (.branchIf condition onTrue onFalse)) :
    Moves additions (branchIf condition onTrue onFalse) := by
  intro builder
  rw [branchIf, after_checkTarget_bind]
  split
  · next hTrue =>
    rw [after_checkTarget_bind]
    split
    · next hFalse => exact later_push ⟨hTrue, hFalse⟩ hallowed rfl
    · exact .refl
  · exact .refl

theorem moves_ret (hallowed : additions.instruction (.ret none)) : Moves additions ret :=
  fun _ => later_push rfl hallowed rfl

theorem moves_fallThrough {target : String} (hallowed : additions.instruction (.branch target)) :
    Moves additions (fallThrough target) := by
  apply Moves.get.bind
  intro builder
  exact Moves.ite (fun _ => moves_branch hallowed) fun _ => .pure ()

/-- A structured branch is made of operations that can also be called one by one. -/
theorem moves_ifElse {condition : Value} {onTrue : Building α} {onFalse : Building β}
    (hbranchIf : ∀ first second, additions.instruction (.branchIf condition first second))
    (hbranch : ∀ target, additions.instruction (.branch target)) (hTrue : Moves additions onTrue)
    (hFalse : Moves additions onFalse) :
    Moves additions (ifElse condition onTrue onFalse) := by
  apply moves_ensureOpen.bind
  intro _
  apply (moves_appendBlock "then").bind
  intro thenLabel
  apply (moves_appendBlock "else").bind
  intro elseLabel
  apply (moves_branchIf (hbranchIf thenLabel elseLabel)).bind
  intro _
  apply (moves_appendBlock "continue").bind
  intro next
  apply (moves_position thenLabel).bind
  intro _
  apply hTrue.bind
  intro a
  apply (moves_fallThrough (hbranch next)).bind
  intro _
  apply (moves_position elseLabel).bind
  intro _
  apply hFalse.bind
  intro b
  apply (moves_fallThrough (hbranch next)).bind
  intro _
  exact (moves_position next).bind fun _ => .pure (a, b)

/-- What follows the check of a width is done at supported widths only. -/
theorem moves_checkWidth_bind {width : UInt32} {next : Unit → Building α}
    (h : 1 ≤ width ∧ width ≤ 64 → Moves additions (next ())) :
    Moves additions (checkWidth width >>= next) := by
  rw [checkWidth]
  by_cases hwidth : 1 ≤ width ∧ width ≤ 64
  · rw [if_pos hwidth, pure_bind]
    exact h hwidth
  · rw [if_neg hwidth]
    exact fun _ => .refl

theorem moves_binary {op : BinaryOp} {width : UInt32} {lhs rhs : Value}
    (hallowed : ∀ name, additions.instruction (.binary name op width lhs rhs)) :
    Moves additions (binary op width lhs rhs) :=
  moves_checkWidth_bind fun hwidth =>
    moves_pushNamed (fun _ => hwidth) hallowed fun _ => rfl

theorem moves_compare {predicate : Predicate} {width : UInt32} {lhs rhs : Value}
    (hallowed : ∀ name, additions.instruction (.compare name predicate width lhs rhs)) :
    Moves additions (compare predicate width lhs rhs) :=
  moves_checkWidth_bind fun hwidth =>
    moves_pushNamed (fun _ => hwidth) hallowed fun _ => rfl

theorem moves_convert {conversion : Conversion} {source target : UInt32} {value : Value}
    (hallowed : ∀ name, additions.instruction (.convert name conversion source value target)) :
    Moves additions (convert conversion source value target) := by
  refine moves_checkWidth_bind fun hsource => moves_checkWidth_bind fun htarget => ?_
  cases hchanges : changesWidth conversion source target with
  | true =>
    simp only [Bool.not_true, Bool.false_eq_true, if_false]
    exact moves_pushNamed (fun _ => ⟨hsource, htarget, hchanges⟩) hallowed fun _ => rfl
  | false => exact fun _ => .refl

theorem moves_select {condition : Value} {ty : Ty} {onTrue onFalse : Value}
    (hallowed : ∀ name, additions.instruction (.select name condition ty onTrue onFalse)) :
    Moves additions (select condition ty onTrue onFalse) :=
  moves_pushNamed (fun _ => trivial) hallowed fun _ => rfl

end Building

end QuantumIR
