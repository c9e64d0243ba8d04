import QuantumIR.Demo
import QuantumIR.Proofs.Structured.Correct
import QuantumIR.Proofs.Structured.Gives

/-!
The program for a hidden pattern, from its parameters to the output of its run. Its module is built
for the allowed parameters and for no others, keeps all rules, and does on every stream of outcomes
what the algorithm says: the query, the measurement of each query qubit, and the output of the
outcomes in their order.
-/

namespace QuantumIR

open Builder Building

namespace Demo

variable {qubits results : Nat} {body : Building Unit}
  {meaning : Option (List Bool) → Interpreting Unit}

theorem exists_create (name : String) (qubits results : Nat) :
    ∃ first, Builder.create name qubits results = .ok first ∧ first.qubitCount = qubits ∧
      first.resultCount = results := by
  rw [Builder.create, if_neg (by omega), if_neg (by omega)]
  exact ⟨_, rfl, rfl, rfl⟩

/-- Assembling a program is to create a builder, to do the steps and to return. -/
theorem assemble_of_does {name : String} {first last : Builder}
    (hcreate : Builder.create name qubits results = .ok first)
    (h : Does (do body; ret) first () last) : assemble name qubits results body = last.finish := by
  have hanswer : ((do body; ret : Building Unit).run.run first).1 = .ok () := h.answer
  have hafter : ((do body; ret : Building Unit).run.run first).2 = last := h.after
  rw [assemble, hcreate]
  change (do
    let _ ← ((do body; ret : Building Unit).run.run first).1
    Builder.finish ((do body; ret : Building Unit).run.run first).2) = _
  rw [hanswer, hafter]
  rfl

/-- A program of compiled steps that write typed instructions only is assembled to a module that is
accepted and whose run ends as the meaning of the steps does. -/
theorem exists_assemble (name : String) (hqubits : qubits < 2 ^ 63) (hresults : results < 2 ^ 63)
    (hcompiles : Compiles qubits results body meaning) (htyped : Moves .typed body) :
    ∃ module, assemble name qubits results body = .ok module ∧ module.verify = .ok () ∧
      ∀ (σ : Type) (limits : Limits) (observer : Observer σ) (stream : Option (List Bool))
        (seen : σ), limits.steps = none →
        EndsLike observer seen (module.evaluate? limits observer none stream seen)
          ((meaning stream).run.run Ledger.empty) := by
  obtain ⟨first, hcreated, rfl, rfl⟩ := exists_create name qubits results
  have hcreate := hcreated
  rw [← Int64.toInt_ofNat_of_lt hqubits, ← Int64.toInt_ofNat_of_lt hresults] at hcreate
  obtain ⟨_, later, last, hbody, hret, hfinish, hends⟩ := hcompiles.exists_ends hcreate
  have hall : Does (do body; ret) first () last := hbody.bind hret
  refine ⟨last.finished, (assemble_of_does hcreated hall).trans hfinish, ?_, hends⟩
  have hmoves : Moves .typed (do body; ret) := htyped.bind fun _ => moves_ret trivial
  have hlater := hmoves first
  rw [hall.after] at hlater
  exact verify_of_later hcreate hlater hfinish

/-- The operations of a query: the target is flipped, all qubits are brought into superposition, the
query qubits of the pattern's bits control the target, the query qubits are brought back, and the
target is reset. -/
def queryOperations (count pattern : Nat) : List Operation :=
  [Operation.single .x count] ++ (List.range count).map (Operation.single .h) ++
    [Operation.single .h count] ++
    ((List.range count).filter pattern.testBit).map (Operation.controlled .x · count) ++
    (List.range count).map (Operation.single .h) ++ [Operation.reset count]

/-- The operations of reading out: each query qubit is measured into the result of its number, and
reset. -/
def readOutOperations (count : Nat) : List Operation :=
  (List.range count).flatMap fun q => [.measureInto q q, .reset q]

/-- The steps of the program are those of the query's operations, of reading out and of output. -/
theorem hiddenPatternSteps_eq (count pattern : Nat) : hiddenPatternSteps count pattern = (do
    (queryOperations count pattern).forM fun operation =>
      Building.perform operation.callee operation.args
    (List.range count).forM fun q => do
      measure q q
      reset q
    recordResults count) := by
  simp only [queryOperations, List.forM_eq_forM, List.forM_append, List.forM_map, List.forM_cons,
    List.forM_nil, bind_assoc, pure_bind]
  rfl

variable {count pattern : Nat}

/-- A query has four kinds of operations. -/
theorem forall_query {motive : Operation → Prop} (hflip : motive (.single .x count))
    (hmix : ∀ q ≤ count, motive (.single .h q))
    (hask : ∀ q < count, motive (.controlled .x q count)) (hreset : motive (.reset count)) :
    ∀ operation ∈ queryOperations count pattern, motive operation := by
  have hqueries : ∀ operation ∈ (List.range count).map (.single .h), motive operation := by
    rw [List.forall_mem_map]
    exact fun q hq => hmix q (List.mem_range.mp hq).le
  have hcontrols : ∀ operation ∈
      ((List.range count).filter pattern.testBit).map (.controlled .x · count),
      motive operation := by
    rw [List.forall_mem_map]
    exact fun q hq => hask q (List.mem_range.mp (List.mem_of_mem_filter hq))
  simp only [queryOperations, List.forall_mem_append, List.forall_mem_singleton]
  exact ⟨⟨⟨⟨⟨hflip, hqueries⟩, hmix count le_rfl⟩, hcontrols⟩, hqueries⟩, hreset⟩

theorem inRange_query :
    ∀ operation ∈ queryOperations count pattern, operation.InRange (count + 1) count := by
  apply forall_query
  · exact .of_unmeasured (by simp [Operation.qubits]) rfl rfl
  · intro q hq
    exact .of_unmeasured (by simp [Operation.qubits]; omega) rfl rfl
  · intro q hq
    exact .of_unmeasured (by simp [Operation.qubits]; omega) rfl rfl
  · exact .of_unmeasured (by simp [Operation.qubits]) rfl rfl

theorem inRange_readOut {q : Nat} (h : q < count) :
    (Operation.measureInto q q).InRange (count + 1) count ∧
      (Operation.reset q).InRange (count + 1) count := by
  constructor
  · exact ⟨by simp [Operation.qubits]; omega, by simpa [Operation.result?] using h, fun _ => rfl⟩
  · exact .of_unmeasured (by simp [Operation.qubits]; omega) rfl rfl

theorem result?_query : ∀ operation ∈ queryOperations count pattern, operation.result? = none :=
  forall_query rfl (fun _ _ => rfl) (fun _ _ => rfl) rfl

/-- What the steps of the program mean. -/
def interpretHiddenPattern (count pattern : Nat) (stream : Option (List Bool)) :
    Interpreting Unit := do
  (queryOperations count pattern).forM (Interpreting.perform stream)
  (List.range count).forM fun q => do
    Interpreting.perform stream (.measureInto q q)
    Interpreting.perform stream (.reset q)
  Interpreting.put (.array count) none
  (List.range count).forM fun r => Interpreting.record r (some (ResultId.text ⟨r⟩))

/-- The steps of the program are compiled to what they mean. -/
theorem compiles_hiddenPattern (hcount : count < 2 ^ 63) (pattern : Nat) :
    Compiles (count + 1) count (hiddenPatternSteps count pattern)
      (interpretHiddenPattern count pattern) := by
  have hcounted : Counted (count + 1) count := ⟨hcount, hcount.le⟩
  have hquery : Compiles (count + 1) count
      ((queryOperations count pattern).forM fun operation =>
        Building.perform operation.callee operation.args)
      fun stream => (queryOperations count pattern).forM (Interpreting.perform stream) :=
    .forM fun operation h => compiles_perform hcounted operation (inRange_query operation h)
  have hturn : ∀ q ∈ List.range count, Compiles (count + 1) count (do measure q q; reset q)
      (fun stream => do
        Interpreting.perform stream (.measureInto q q)
        Interpreting.perform stream (.reset q)) := by
    intro q hq
    obtain ⟨hmeasure, hreset⟩ := inRange_readOut (List.mem_range.mp hq)
    exact (compiles_perform hcounted _ hmeasure).bind fun _ => compiles_perform hcounted _ hreset
  have hrecords : Compiles (count + 1) count
      ((List.range count).forM fun r => record .result (index r) (some (ResultId.text ⟨r⟩)))
      fun _ => (List.range count).forM fun r => Interpreting.record r (some (ResultId.text ⟨r⟩)) :=
    .forM fun r hr => compiles_record hcounted (List.mem_range.mp hr) _
  have harray : Compiles (count + 1) count (record .array (.int (Int64.ofNat count)) none)
      fun _ => Interpreting.put (.array (Int64.ofNat count).toInt) none :=
    compiles_recordArray _ none
  rw [Int64.toInt_ofNat_of_lt hcount] at harray
  rw [hiddenPatternSteps_eq]
  exact hquery.bind fun _ => (Compiles.forM hturn).bind fun _ => harray.bind fun _ => hrecords

/-- The steps of the program write typed instructions only. -/
theorem moves_hiddenPattern (count pattern : Nat) :
    Moves .typed (hiddenPatternSteps count pattern) := by
  have hperform : ∀ callee args, Moves .typed (Building.perform callee args) :=
    fun callee args => moves_perform (moves_intrinsic_within (callsWithin_typed callee args))
  have hrecord : ∀ kind value label, Moves .typed (record kind value label) :=
    fun kind value label => moves_record (fun _ _ => trivial) fun _ _ => callsWithin_typed _ _
  rw [hiddenPatternSteps_eq]
  refine (Moves.forM fun _ => hperform _ _).bind fun _ => ?_
  refine (Moves.forM fun _ => (hperform _ _).bind fun _ => hperform _ _).bind fun _ => ?_
  exact (hrecord _ _ _).bind fun _ => .forM fun _ => hrecord _ _ _

/-- What is known after so many turns of reading out: each result so far holds the outcome of its
place in the stream. -/
structure ReadOut (stream : List Bool) (before : Ledger) (turns : Nat) (ledger : Ledger) : Prop where
  position : ledger.position = turns
  results : ∀ r < turns, ledger.results.get? r = stream[r]?
  operations : ledger.operations = before.operations ++ readOutOperations turns
  output : ledger.output = before.output

/-- One more qubit is read out as long as there are outcomes. -/
theorem ReadOut.next {stream : List Bool} {before ledger : Ledger} {turn : Nat}
    (hturn : turn < stream.length) (h : ReadOut stream before turn ledger) :
    ∃ after, (do
        Interpreting.perform (some stream) (.measureInto turn turn)
        Interpreting.perform (some stream) (.reset turn)).Gives ledger () after ∧
      ReadOut stream before (turn + 1) after := by
  have houtcome : stream[ledger.position]? = some stream[turn] := by
    rw [h.position]
    exact List.getElem?_eq_getElem hturn
  refine ⟨_, (Interpreting.Gives.measureInto houtcome turn turn).bind rfl, ?_, ?_, ?_, h.output⟩
  · exact congrArg (· + 1) h.position
  · intro r hr
    change (ledger.results.set turn stream[turn]).get? r = _
    rw [Bindings.get?_set]
    split
    · next heq =>
      subst heq
      exact (List.getElem?_eq_getElem hturn).symm
    · next hne => exact h.results r (by omega)
  · change ledger.operations ++ [.measureInto turn turn] ++ [.reset turn] = _
    rw [h.operations]
    simp [readOutOperations, List.range_succ]

/-- The output of the program: the length of an array, and then outcomes in their order, each under
the name of its result. -/
def namedOutput (outcomes : List Bool) : List OutputRecord :=
  ⟨.array outcomes.length, none⟩ ::
    outcomes.mapIdx fun place value => ⟨.result value, some ("r" ++ toString place)⟩

/-- No name of a result has a zero character in it. -/
theorem shown_namedOutput (outcomes : List Bool) :
    (namedOutput outcomes).map OutputRecord.shown = namedOutput outcomes := by
  have hname : ∀ place : Nat, Text.beforeZero ("r" ++ toString place) = "r" ++ toString place := by
    intro place
    apply Text.beforeZero_of_not_mem
    rw [String.toList_append, Text.toList_toString, List.mem_append]
    rintro (hletter | hdigit)
    · simp at hletter
    · have hall := List.all_eq_true.mp (Text.all_isDigit_toDigits place) _ hdigit
      exact absurd hall (by decide)
  have hshown : ∀ record ∈ namedOutput outcomes, record.shown = record := by
    intro record hrecord
    rcases List.mem_cons.mp hrecord with rfl | hrecord
    · rfl
    · obtain ⟨place, hplace, rfl⟩ := List.mem_mapIdx.mp hrecord
      rw [OutputRecord.shown, Option.map_some, hname]
  exact (List.map_congr_left hshown).trans (List.map_id _)

/-- What the results hold after reading out is what the output shows. -/
theorem output_readOut {stream : List Bool} {before ledger : Ledger} (h : count ≤ stream.length)
    (hread : ReadOut stream before count ledger) :
    ⟨.array count, none⟩ :: ((List.range count).map fun r =>
      ⟨.result ((ledger.results.get? r).getD false), some (ResultId.text ⟨r⟩)⟩) =
      namedOutput (stream.take count) := by
  have hlength : (stream.take count).length = count := List.length_take_of_le h
  rw [namedOutput, hlength]
  congr 1
  apply List.ext_getElem
  · simp [h]
  · intro place hplace _
    rw [List.length_map, List.length_range] at hplace
    have hresult := hread.results place hplace
    rw [List.getElem?_eq_getElem (hplace.trans_le h)] at hresult
    simp [hresult, ResultId.text]

/-- The meaning of the program on a stream with an outcome for each query qubit. -/
theorem gives_hiddenPattern {stream : List Bool} (h : count ≤ stream.length) (pattern : Nat) :
    ∃ after, (interpretHiddenPattern count pattern (some stream)).Gives Ledger.empty () after ∧
      after.operations = queryOperations count pattern ++ readOutOperations count ∧
      after.position = count ∧ after.output = namedOutput (stream.take count) := by
  have hquery : ((queryOperations count pattern).forM (Interpreting.perform (some stream))).Gives
      Ledger.empty () { Ledger.empty with operations := queryOperations count pattern } :=
    .performAll result?_query _
  have hstart : ReadOut stream { Ledger.empty with operations := queryOperations count pattern } 0
      { Ledger.empty with operations := queryOperations count pattern } :=
    ⟨rfl, nofun, (List.append_nil _).symm, rfl⟩
  obtain ⟨middle, hreads, hmiddle⟩ := Interpreting.Gives.forM_range hstart
    fun turn hturn _ hbefore => hbefore.next (hturn.trans_le h)
  have hrecords := Interpreting.Gives.recordAll (List.range count)
    (fun r => some (ResultId.text ⟨r⟩))
    { middle with output := middle.output ++ [⟨.array count, none⟩] }
  refine ⟨_, hquery.bind (hreads.bind (.bind rfl hrecords)), hmiddle.operations,
    hmiddle.position, ?_⟩
  rw [← output_readOut h hmiddle, hmiddle.output]
  rfl

/-- The module of the program, from its parameters to the end of its run. -/
theorem exists_hiddenPattern (hlow : 1 ≤ count) (hhigh : count ≤ 63)
    (hpattern : pattern < 2 ^ count) :
    ∃ module, hiddenPattern count pattern = .ok module ∧ module.verify = .ok () ∧
      ∀ (limits : Limits) (stream : List Bool), limits.steps = none → count ≤ stream.length →
        ∃ metadata, module.Stops limits none (some stream)
            (queryOperations count pattern ++ readOutOperations count) (.ok metadata) ∧
          metadata.consumed = count ∧ metadata.output = namedOutput (stream.take count) := by
  have hcount : count + 1 < 2 ^ 63 := by omega
  have hresults := (Nat.lt_succ_self count).trans hcount
  obtain ⟨module, hassemble, hverify, hends⟩ := exists_assemble "bernstein_vazirani" hcount hresults
    (compiles_hiddenPattern hresults pattern) (moves_hiddenPattern count pattern)
  refine ⟨module, ?_, hverify, ?_⟩
  · have hallowed : ¬Nat.pow 2 count ≤ pattern := Nat.not_le.mpr hpattern
    rw [hiddenPattern, if_neg (by omega), if_neg hallowed, hassemble]
    rfl
  · intro limits stream hsteps hstream
    obtain ⟨after, hgives, hoperations, hposition, houtput⟩ := gives_hiddenPattern hstream pattern
    have hrun := hends _ limits .trace (some stream) #[] hsteps
    rw [hgives] at hrun
    obtain ⟨metadata, hstops, hshown, hconsumed⟩ := stops_of_endsLike hrun
    refine ⟨metadata, hoperations ▸ hstops, hconsumed.trans hposition, ?_⟩
    rw [hshown, houtput, shown_namedOutput]

/-- Other parameters are not allowed. -/
theorem hiddenPattern_eq_ok {module : Module} (h : hiddenPattern count pattern = .ok module) :
    1 ≤ count ∧ count ≤ 63 ∧ pattern < 2 ^ count := by
  rw [hiddenPattern] at h
  split at h
  · cases h
  · next hcount =>
    split at h
    · cases h
    · next hpattern => exact ⟨by omega, by omega, Nat.not_le.mp hpattern⟩

/-- The program for a hidden pattern is built for 1 to 63 query qubits and a pattern of so many
bits, and for nothing else. Its module keeps all rules. Given an outcome for each query qubit, its
run asks the query, reads the query qubits out, and shows the outcomes in their order. -/
theorem build_hiddenPattern (count pattern : Nat) :
    ((∃ module, build .bernsteinVazirani (some count) (some pattern) = .ok module) ↔
      1 ≤ count ∧ count ≤ 63 ∧ pattern < 2 ^ count) ∧
    ∀ module, build .bernsteinVazirani (some count) (some pattern) = .ok module →
      module.verify = .ok () ∧
      ∀ (limits : Limits) (stream : List Bool), limits.steps = none → count ≤ stream.length →
        ∃ metadata, module.Stops limits none (some stream)
            (queryOperations count pattern ++ readOutOperations count) (.ok metadata) ∧
          metadata.consumed = count ∧ metadata.output = namedOutput (stream.take count) := by
  constructor
  · constructor
    · rintro ⟨module, hbuild⟩
      exact hiddenPattern_eq_ok hbuild
    · rintro ⟨hlow, hhigh, hpattern⟩
      obtain ⟨module, hbuild, -⟩ := exists_hiddenPattern hlow hhigh hpattern
      exact ⟨module, hbuild⟩
  · intro module hbuild
    obtain ⟨hlow, hhigh, hpattern⟩ := hiddenPattern_eq_ok hbuild
    obtain ⟨built, hbuilt, hverify, hruns⟩ := exists_hiddenPattern hlow hhigh hpattern
    cases hbuild.symm.trans hbuilt
    exact ⟨hverify, hruns⟩

/-- Three query qubits and the pattern of the first and the third, with an outcome more than there
are qubits. -/
theorem build_hiddenPattern_three : ∃ module,
    build .bernsteinVazirani (some 3) (some 5) = .ok module ∧ module.verify = .ok () ∧
    ∃ metadata, module.Stops .standard none (some [true, false, true, true])
        [.single .x 3, .single .h 0, .single .h 1, .single .h 2, .single .h 3,
          .controlled .x 0 3, .controlled .x 2 3, .single .h 0, .single .h 1, .single .h 2, .reset 3,
          .measureInto 0 0, .reset 0, .measureInto 1 1, .reset 1, .measureInto 2 2, .reset 2]
        (.ok metadata) ∧
      metadata.consumed = 3 ∧
      metadata.output = [⟨.array 3, none⟩, ⟨.result true, some "r0"⟩, ⟨.result false, some "r1"⟩,
        ⟨.result true, some "r2"⟩] := by
  obtain ⟨hbuilds, hruns⟩ := build_hiddenPattern 3 5
  obtain ⟨module, hmodule⟩ := hbuilds.mpr (by decide)
  obtain ⟨hverify, hrun⟩ := hruns module hmodule
  exact ⟨module, hmodule, hverify, hrun .standard [true, false, true, true] rfl (by decide)⟩

end Demo

end QuantumIR
