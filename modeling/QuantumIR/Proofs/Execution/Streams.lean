import QuantumIR.Proofs.Execution.Accounting
import QuantumIR.Proofs.Execution.Stops
import QuantumIR.Proofs.Execution.Sources

/-!
How an evaluation depends on its stream. Of a stream only the outcomes that are consumed matter:
more of them change nothing, and with fewer the evaluation fails at the call that takes the first
missing one. An evaluation without a stream is one with a stream of outcomes that are all false,
except that it counts none of them.
-/

namespace QuantumIR

open Machine

namespace Source

variable {stream outcomes : List Bool} {consumed : Nat} {left : Source} {error : EvalError}

theorem take_stream_eq_ok_iff : take outcomes ⟨some stream, consumed⟩ = .ok left ↔
    outcomes.length ≤ stream.length ∧
      left = ⟨some (stream.drop outcomes.length), consumed + outcomes.length⟩ := by
  by_cases hlength : outcomes.length ≤ stream.length
  · simp [take_stream, hlength, eq_comm]
  · simp [take_stream, hlength]

theorem take_stream_eq_error_iff : take outcomes ⟨some stream, consumed⟩ = .error error ↔
    stream.length < outcomes.length ∧ error = .streamExhausted (consumed + stream.length) := by
  by_cases hlength : outcomes.length ≤ stream.length
  · simp [take_stream, hlength]
  · simp [take_stream, hlength, Nat.lt_of_not_le hlength, eq_comm]

/-- Outcomes that a stream has given are the first ones of that stream. -/
theorem Offers.prefix_of_take (h : (⟨some stream, consumed⟩ : Source).Offers outcomes)
    (htake : take outcomes ⟨some stream, consumed⟩ = .ok left) : outcomes <+: stream := by
  rcases h with hstream | houtcomes
  · exact hstream.eq_of_length_le (take_stream_eq_ok_iff.mp htake).1 ▸ List.prefix_rfl
  · exact houtcomes

/-- Of two lists of outcomes that are all false, one starts with the other. -/
theorem offers_of_false (hstream : ∀ value ∈ stream, value = false)
    (houtcomes : ∀ value ∈ outcomes, value = false) :
    (⟨some stream, consumed⟩ : Source).Offers outcomes := by
  have hreplicate : ∀ {n m : Nat}, n ≤ m → List.replicate n false <+: List.replicate m false := by
    intro n m h
    rw [List.prefix_replicate_iff]
    simpa using h
  rw [Offers, List.eq_replicate_of_mem hstream, List.eq_replicate_of_mem houtcomes]
  exact (Nat.le_total stream.length outcomes.length).imp hreplicate hreplicate

end Source

namespace Module

variable {module : Module} {limits : Limits} {entryPoint : Option String}
  {stream other : Option (List Bool)} {operations : List Operation} {metadata : RunMetadata}
  {start : Machine} {history : List CatalogCall} {error : EvalError}

theorem source_of_prepare (h : module.prepare entryPoint stream = .ok start) :
    start.state.source = ⟨stream, 0⟩ := by
  obtain ⟨entry, -, rfl⟩ := exists_start_of_prepare h
  rfl

/-- Whether an evaluation starts, and where, does not depend on its stream. -/
theorem prepare_withSource (h : module.prepare entryPoint stream = .ok start)
    (other : Option (List Bool)) :
    module.prepare entryPoint other = .ok (start.withSource ⟨other, 0⟩) := by
  obtain ⟨entry, hentry, hnone, rfl⟩ := prepare_eq_ok_iff.mp h
  exact prepare_eq_ok_iff.mpr ⟨entry, hentry, hnone, rfl⟩

/-- An evaluation that succeeds has taken some outcomes. From any other source that offers them it
is the same evaluation, or fails because that source gives out. -/
theorem Stops.draws (h : module.Stops limits entryPoint stream operations (.ok metadata)) :
    ∃ start history last taken, module.prepare entryPoint stream = .ok start ∧
      Runs module limits start history last ∧ operations = operationsOf history ∧
      (⟨stream, 0⟩ : Source).take taken = .ok last.state.source ∧
      last.state.source.consumed = metadata.consumed ∧
      (⟨stream, 0⟩ : Source).Offers taken ∧
      ∀ other, (⟨other, 0⟩ : Source).Offers taken →
        (∀ left, (⟨other, 0⟩ : Source).take taken = .ok left →
          module.Stops limits entryPoint other operations
            (.ok { metadata with consumed := left.consumed })) ∧
        ∀ error, (⟨other, 0⟩ : Source).take taken = .error error →
          GivesOut module limits start ⟨other, 0⟩ history error := by
  rcases h.cases with ⟨error, -, -, herror⟩ | ⟨start, last, hprepare, hreaches, hlast⟩
  · cases herror
  obtain ⟨history, hruns, rfl⟩ := reaches_iff_runs.mp hreaches
  obtain ⟨taken, htake, hoffers, hother⟩ := hruns.draws
  rw [source_of_prepare hprepare] at htake hoffers
  obtain rfl := metadata_of_outcome? hlast
  refine ⟨start, history, last, taken, hprepare, hruns, rfl, htake, rfl, hoffers, ?_⟩
  intro other hoffer
  obtain ⟨hsame, hgives⟩ := hother ⟨other, 0⟩ hoffer
  refine ⟨fun left hleft => ?_, hgives⟩
  refine stops_of_reaches (prepare_withSource hprepare other) (hsame left hleft) ?_
  obtain ⟨frames, state⟩ := last
  cases frames with
  | nil => rfl
  | cons frame callers =>
    rw [outcome?] at hlast
    split at hlast <;> cases hlast

/-- An evaluation whose source gives out fails before the call that takes the first missing
outcome. -/
theorem stops_of_givesOut (hprepare : module.prepare entryPoint stream = .ok start)
    (h : GivesOut module limits start ⟨other, 0⟩ history error) :
    ∃ earlier call later before after left, history = earlier ++ call :: later ∧
      (⟨stream, 0⟩ : Source).take before = .ok call.before.source ∧
      (⟨stream, 0⟩ : Source).take after = .ok call.after.source ∧
      (⟨other, 0⟩ : Source).take before = .ok left ∧
      (⟨other, 0⟩ : Source).take after = .error error ∧
      module.Stops limits entryPoint other (operationsOf earlier) (.error error) := by
  cases h with
  | during hbefore hafter hleft herror hreaches hstuck =>
    rw [source_of_prepare hprepare] at hbefore hafter
    exact ⟨_, _, _, _, _, _, rfl, hbefore, hafter, hleft, herror,
      stops_of_reaches (prepare_withSource hprepare other) hreaches hstuck⟩

/-- Only the outcomes that an evaluation consumes matter. With more of them it is the same. With
fewer it fails when they give out, at the call that takes the first missing one: the operations of
the calls before that one are all that it hands on. -/
theorem Stops.determined_by_consumed {stream : List Bool}
    (h : module.Stops limits entryPoint (some stream) operations (.ok metadata)) :
    metadata.consumed ≤ stream.length ∧
    (∀ more, module.Stops limits entryPoint (some (stream ++ more)) operations (.ok metadata)) ∧
    ∀ k < metadata.consumed, ∃ start earlier call later last,
      module.prepare entryPoint (some stream) = .ok start ∧
      Runs module limits start (earlier ++ call :: later) last ∧
      operations = operationsOf (earlier ++ call :: later) ∧
      call.before.consumed ≤ k ∧ k < call.after.consumed ∧
      module.Stops limits entryPoint (some (stream.take k)) (operationsOf earlier)
        (.error (.streamExhausted k)) := by
  obtain ⟨start, history, last, taken, hprepare, hruns, rfl, htake, hconsumed, hoffers, hother⟩ :=
    h.draws
  have hprefix := hoffers.prefix_of_take htake
  obtain ⟨hlength, hsource⟩ := Source.take_stream_eq_ok_iff.mp htake
  have hcount : metadata.consumed = taken.length := by
    rw [← hconsumed, hsource, Nat.zero_add]
  refine ⟨hcount ▸ hlength, fun more => ?_, fun k hk => ?_⟩
  · have hmore := hprefix.trans (List.prefix_append stream more)
    have hstops := (hother (some (stream ++ more)) (Or.inr hmore)).1 _
      (Source.take_stream_eq_ok_iff.mpr ⟨hmore.length_le, rfl⟩)
    rwa [Nat.zero_add, ← hcount] at hstops
  · have hshort : (stream.take k).length = k := by
      rw [List.length_take]
      omega
    have hfewer : stream.take k <+: taken := by
      refine List.prefix_of_prefix_length_le (List.take_prefix k stream) hprefix ?_
      omega
    have herror : (⟨some (stream.take k), 0⟩ : Source).take taken =
        .error (.streamExhausted k) :=
      Source.take_stream_eq_error_iff.mpr ⟨by omega, by rw [hshort, Nat.zero_add]⟩
    obtain ⟨earlier, call, later, before, after, left, rfl, hbefore, hafter, hleft, hgone,
      hstops⟩ :=
      stops_of_givesOut hprepare ((hother (some (stream.take k)) (Or.inl hfewer)).2 _ herror)
    -- In the whole run the calls before the failing one have taken `before`, and with it `after`.
    obtain ⟨-, hbefore⟩ := Source.take_stream_eq_ok_iff.mp hbefore
    obtain ⟨-, hafter⟩ := Source.take_stream_eq_ok_iff.mp hafter
    have hleast : call.before.consumed = before.length :=
      (congrArg Source.consumed hbefore).trans (Nat.zero_add _)
    have hmost : call.after.consumed = after.length :=
      (congrArg Source.consumed hafter).trans (Nat.zero_add _)
    have henough := (Source.take_stream_eq_ok_iff.mp hleft).1
    have hmissing := (Source.take_stream_eq_error_iff.mp hgone).1
    exact ⟨start, earlier, call, later, last, hprepare, hruns, rfl, by omega, by omega, hstops⟩

/-- What is known of `reading` at its end. -/
def readingMetadata (consumed : Nat) (measured read : Bool) : RunMetadata :=
  ⟨"main", 1, 3, 6, consumed, [⟨0, some 0, measured⟩],
    [⟨.result read, none⟩, ⟨.result false, none⟩]⟩

theorem stops_reading : reading.Stops .standard none (some [true, false, true]) [.measureInto 0 0]
    (.ok (readingMetadata 2 true false)) := by
  have hprepare : reading.prepare none (some [true, false, true]) =
      .ok (.start readingMain (some [true, false, true])) :=
    prepare_of_verify rfl rfl (by decide) _
  have hreaches : ∃ operations last, Machine.Reaches reading .standard
      (.start readingMain (some [true, false, true])) operations last ∧
      operations = [.measureInto 0 0] ∧
      last.outcome? reading .standard = some (.ok (readingMetadata 2 true false)) :=
    ⟨_, _, .step rfl (.step rfl (.step rfl (.step rfl (.step rfl (.step rfl (.refl _)))))),
      rfl, rfl⟩
  obtain ⟨_, last, hreaches, rfl, hlast⟩ := hreaches
  exact stops_of_reaches hprepare hreaches hlast

theorem stops_reading_with_fewer :
    reading.Stops .standard none (some [true, false, true, true]) [.measureInto 0 0]
      (.ok (readingMetadata 2 true false)) ∧
    (∃ dispatched, reading.Stops .standard none (some []) dispatched
      (.error (.streamExhausted 0))) ∧
    ∃ dispatched, reading.Stops .standard none (some [true]) dispatched
      (.error (.streamExhausted 1)) := by
  obtain ⟨-, hmore, hfewer⟩ := stops_reading.determined_by_consumed
  obtain ⟨-, _, -, -, -, -, -, -, -, -, hnone⟩ := hfewer 0 (by decide)
  obtain ⟨-, _, -, -, -, -, -, -, -, -, hone⟩ := hfewer 1 (by decide)
  exact ⟨hmore [true], ⟨_, hnone⟩, ⟨_, hone⟩⟩

/-- An evaluation that succeeds with outcomes that are all false succeeds without a stream. -/
theorem Stops.without_stream {stream : List Bool} (hfalse : ∀ value ∈ stream, value = false)
    (h : module.Stops limits entryPoint (some stream) operations (.ok metadata)) :
    module.Stops limits entryPoint none operations (.ok { metadata with consumed := 0 }) := by
  obtain ⟨start, history, last, taken, -, -, -, htake, -, hoffers, hother⟩ := h.draws
  have htaken : ∀ value ∈ taken, value = false :=
    fun value hvalue => hfalse value ((hoffers.prefix_of_take htake).subset hvalue)
  exact (hother none htaken).1 ⟨none, 0⟩ rfl

/-- An evaluation that succeeds without a stream needs some number of outcomes. With so many that
are all false it is the same evaluation, and with fewer it fails. -/
theorem Stops.with_false (h : module.Stops limits entryPoint none operations (.ok metadata)) :
    metadata.consumed = 0 ∧
    ∃ needed, ∀ stream : List Bool, (∀ value ∈ stream, value = false) →
      (needed ≤ stream.length → module.Stops limits entryPoint (some stream) operations
        (.ok { metadata with consumed := needed })) ∧
      (stream.length < needed → ∃ dispatched, dispatched <+: operations ∧
        module.Stops limits entryPoint (some stream) dispatched
          (.error (.streamExhausted stream.length))) := by
  obtain ⟨start, history, last, taken, hprepare, -, rfl, htake, hconsumed, hoffers, hother⟩ :=
    h.draws
  have hsource : last.state.source = ⟨none, 0⟩ := (Except.ok.inj htake).symm
  refine ⟨hconsumed.symm.trans (congrArg Source.consumed hsource), taken.length, ?_⟩
  intro stream hstream
  obtain ⟨hsame, hgives⟩ := hother (some stream) (Source.offers_of_false hstream hoffers)
  constructor
  · intro henough
    have hstops := hsame _ (Source.take_stream_eq_ok_iff.mpr ⟨henough, rfl⟩)
    rwa [Nat.zero_add] at hstops
  · intro hfew
    have herror := hgives _ (Source.take_stream_eq_error_iff.mpr ⟨hfew, rfl⟩)
    obtain ⟨earlier, call, later, -, -, -, rfl, -, -, -, -, hstops⟩ :=
      stops_of_givesOut hprepare herror
    rw [Nat.zero_add] at hstops
    refine ⟨operationsOf earlier, ?_, hstops⟩
    rw [operationsOf_append]
    exact List.prefix_append _ _

/-- An evaluation without a stream succeeds exactly if it succeeds with some stream of outcomes that
are all false. What it hands on and what is known at its end is then the same with every such stream
that is long enough, except that without a stream no outcome is counted as consumed. -/
theorem stops_without_stream_iff :
    ((∃ operations metadata, module.Stops limits entryPoint none operations (.ok metadata)) ↔
      ∃ stream operations metadata, (∀ value ∈ stream, value = false) ∧
        module.Stops limits entryPoint (some stream) operations (.ok metadata)) ∧
    ∀ operations metadata, module.Stops limits entryPoint none operations (.ok metadata) →
      metadata.consumed = 0 ∧
      ∃ needed, ∀ stream : List Bool, (∀ value ∈ stream, value = false) →
        (needed ≤ stream.length → module.Stops limits entryPoint (some stream) operations
          (.ok { metadata with consumed := needed })) ∧
        (stream.length < needed → ∃ dispatched, dispatched <+: operations ∧
          module.Stops limits entryPoint (some stream) dispatched
            (.error (.streamExhausted stream.length))) := by
  refine ⟨⟨?_, ?_⟩, fun operations metadata h => h.with_false⟩
  · rintro ⟨operations, metadata, h⟩
    obtain ⟨-, needed, hstreams⟩ := h.with_false
    have hfalse : ∀ value ∈ List.replicate needed false, value = false :=
      fun value hvalue => List.eq_of_mem_replicate hvalue
    exact ⟨_, operations, _, hfalse, (hstreams _ hfalse).1 List.length_replicate.ge⟩
  · rintro ⟨stream, operations, metadata, hfalse, h⟩
    exact ⟨operations, _, h.without_stream hfalse⟩

theorem stops_reading_without_stream :
    reading.Stops .standard none none [.measureInto 0 0] (.ok (readingMetadata 0 false false)) ∧
    (∃ stream operations metadata, (∀ value ∈ stream, value = false) ∧
      reading.Stops .standard none (some stream) operations (.ok metadata)) ∧
    ∃ needed, reading.Stops .standard none (some (List.replicate needed false)) [.measureInto 0 0]
      (.ok (readingMetadata needed false false)) := by
  have hprepare : reading.prepare none none = .ok (.start readingMain none) :=
    prepare_of_verify rfl rfl (by decide) none
  have hreaches : ∃ operations last, Machine.Reaches reading .standard
      (.start readingMain none) operations last ∧ operations = [.measureInto 0 0] ∧
      last.outcome? reading .standard = some (.ok (readingMetadata 0 false false)) :=
    ⟨_, _, .step rfl (.step rfl (.step rfl (.step rfl (.step rfl (.step rfl (.refl _)))))),
      rfl, rfl⟩
  obtain ⟨_, last, hreaches, rfl, hlast⟩ := hreaches
  have hstops := stops_of_reaches hprepare hreaches hlast
  obtain ⟨-, needed, hneeded⟩ := stops_without_stream_iff.2 _ _ hstops
  have hfalse : ∀ value ∈ List.replicate needed false, value = false :=
    fun value hvalue => List.eq_of_mem_replicate hvalue
  exact ⟨hstops, stops_without_stream_iff.1.mp ⟨_, _, hstops⟩,
    needed, (hneeded _ hfalse).1 List.length_replicate.ge⟩

end Module

end QuantumIR
