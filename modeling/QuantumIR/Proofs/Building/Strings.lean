import QuantumIR.Proofs.Building.Loads
import QuantumIR.Proofs.Building.Numbered
import QuantumIR.Proofs.Execution.Canonical
import QuantumIR.Proofs.Execution.Labels
import QuantumIR.Proofs.Structured.Points

/-!
Strings that a builder adds. Each gets the next number and keeps it with its bytes until the module
is finished, printed and loaded again. So output that is recorded under a string has exactly the
text of this string as its label, in a run of the module that was built and in a run of what is
loaded from its text.
-/

namespace QuantumIR

open Builder

namespace Instruction.Records

variable {instruction : Instruction} {kind : RecordKind} {operand : Operand} {name : String}
  {length : UInt64}

/-- Strings have names of their own, which stay when values are numbered. -/
theorem renumbered (h : instruction.Records kind operand (.firstByte name length))
    (names : Bindings String String) : ∃ operand',
      (Builder.renumbered names instruction).Records kind operand' (.firstByte name length) := by
  obtain ⟨result, ret, callee, ty, hname, rfl⟩ := h
  exact ⟨_, _, _, callee, ty, hname, rfl⟩

/-- The text of a pointer to a string spells the same pointer. -/
theorem canonical (h : instruction.Records kind operand (.firstByte name length)) :
    instruction.canonical.Records kind operand.canonical (.firstByte name length) := by
  obtain ⟨result, ret, callee, ty, hname, rfl⟩ := h
  exact ⟨_, _, callee, ty, hname, rfl⟩

end Instruction.Records

theorem instructionAt?_canonical (function : Function) (label : String) (place : Nat) :
    instructionAt? function.canonical.blocks label place =
      (instructionAt? function.blocks label place).map Instruction.canonical :=
  instructionAt?_map Instruction.canonical function.blocks label place

/-- The text of the string that a step adds. -/
def BuildStep.string? : BuildStep → Option String
  | addString string => some string
  | record _ _ label => label
  | _ => none

namespace Builder

/-- The global string for a text that is added next. -/
def nextGlobal (builder : Builder) (text : String) : GlobalString :=
  ⟨toString builder.globals.length, Text.utf8 text.toList ++ [0]⟩

/-- The value for a text that is added next: the first byte of its string. -/
def stringValue (builder : Builder) (text : String) : Value :=
  .firstByte (builder.nextGlobal text).name
    (UInt64.ofNat (builder.nextGlobal text).bytes.length)

variable {additions : Additions} {builder middle last : Builder} {step : BuildStep}
  {text : String}

theorem globals_after_addString (builder : Builder) (text : String) :
    (builder.after (Building.addString text)).globals =
      builder.globals ++ [builder.nextGlobal text] :=
  rfl

/-- A step with a string adds it after those that there are, also if it fails afterwards. -/
theorem globals_after_string (h : step.string? = some text) :
    builder.globals ++ [builder.nextGlobal text] <+: (builder.after step.run).globals := by
  cases step with
  | addString =>
    cases h
    exact List.prefix_rfl
  | record kind value label =>
    cases h
    have hintrinsic : Building.Moves .any
        (Building.intrinsic (.record kind) [value, builder.stringValue text]) :=
      Building.moves_intrinsic (fun _ _ => trivial) trivial
    have hdone : Building.Moves .any (Building.perform (.record kind)
        [value, builder.stringValue text] >>= fun _ => pure Reply.done) :=
      (Building.moves_perform hintrinsic).bind fun _ => .pure _
    have hafter : builder.after (BuildStep.record kind value (some text)).run =
        (builder.after (Building.addString text)).after (Building.perform (.record kind)
          [value, builder.stringValue text] >>= fun _ => pure Reply.done) := by
      rw [BuildStep.run, Building.record, bind_assoc, after_bind]
      rfl
    rw [hafter, ← globals_after_addString]
    exact (hdone _).extends.globals
  | _ => cases h

end Builder

/-- A record under a text is a call with the string of the text as the label. -/
theorem Building.adds_record (builder : Builder) (kind : RecordKind) (value : Value)
    (text : String) : Adds builder (record kind value (some text)) fun _ added =>
      ∃ operand, operand.value = value ∧ added.Records kind operand (builder.stringValue text) := by
  refine Adds.bind rfl rfl fun label hlabel => ?_
  cases Except.ok.inj hlabel
  refine Adds.map ((adds_intrinsic (.record kind) _).imp ?_)
  rintro _ _ ⟨result, -, rfl, -⟩
  obtain ⟨ty, hparams⟩ : ∃ ty, (Intrinsic.record kind).signature.params = [ty, .label] := by
    cases kind <;> exact ⟨_, rfl⟩
  have hargs : typedArgs (.record kind) [value, builder.stringValue text] =
      [⟨ty, value⟩, ⟨.label, builder.stringValue text⟩] := by
    rw [typedArgs, hparams]
    rfl
  exact ⟨⟨ty, value⟩, rfl, result, _, _, .label, (Intrinsic.record kind).ofName?_name,
    congrArg _ hargs⟩

namespace Builder

variable {additions : Additions} {first middle last : Builder} {step : BuildStep} {text : String}

/-- The string that a step adds is there to the end. -/
theorem globals_prefix_of_includes (h : Includes first last middle step)
    (hstring : step.string? = some text) :
    middle.globals ++ [middle.nextGlobal text] <+: last.globals :=
  (globals_after_string hstring).trans (later_of_session h.after).extends.globals

/-- A string that is added later has another name. -/
theorem name_nextGlobal_ne {later : Builder} {other : BuildStep} {otherText : String}
    (hstring : step.string? = some text)
    (hlater : Includes (middle.after step.run) last later other) :
    (later.nextGlobal otherText).name ≠ (middle.nextGlobal text).name := by
  intro hname
  have hlength : later.globals.length = middle.globals.length := Nat.repr_injective hname
  have hglobals : middle.globals ++ [middle.nextGlobal text] <+: later.globals :=
    (globals_after_string hstring).trans (later_of_session hlater.before).extends.globals
  have hle := hglobals.length_le
  rw [List.length_append, List.length_singleton, hlength] at hle
  omega

/-- A step that records under a text adds a call that does. -/
theorem instructionAt?_of_record (hmiddle : middle.current ∈ middle.labels) {kind : RecordKind}
    {value : Value} {reply : Reply}
    (hincludes : Includes first last middle (.record kind value (some text)))
    (hanswer : middle.answer (BuildStep.record kind value (some text)).run = .ok reply) :
    ∃ recording operand, operand.value = value ∧
      instructionAt? last.blocks middle.current middle.currentLength = some recording ∧
      recording.Records kind operand (middle.stringValue text) := by
  have hadds : Building.Adds middle (BuildStep.record kind value (some text)).run
      fun _ added => ∃ operand, operand.value = value ∧
        added.Records kind operand (middle.stringValue text) := by
    rw [BuildStep.run]
    exact (Building.adds_record middle kind value text).map
  obtain ⟨recording, ⟨operand, hvalue, hrecords⟩, hblocks⟩ := hadds reply hanswer
  refine ⟨recording, operand, hvalue, ?_, hrecords⟩
  refine instructionAt?_of_later (later_of_session hincludes.after) ?_
  rw [hblocks]
  exact instructionAt?_append hmiddle recording

/-- What a module keeps of a string that was added for a text: the string, the text as the label of
what is recorded under it, and the calls that record under it at the places where they were built. -/
structure KeepsString (last middle : Builder) (text : String) (module : Module) : Prop where
  global : module.global? (middle.nextGlobal text).name = some (middle.nextGlobal text)
  labels : '\x00' ∉ text.toList → module.Labels (middle.stringValue text) text
  records : ∀ {block : String} {place : Nat} {recording : Instruction} {kind : RecordKind}
    {operand : Operand}, instructionAt? last.blocks block place = some recording →
    recording.Records kind operand (middle.stringValue text) →
    ∃ entry kept operand', module.definitions = [entry] ∧
      instructionAt? entry.blocks block place = some kept ∧
      kept.Records kind operand' (middle.stringValue text)

theorem keepsString_finished (h : last.Sound additions)
    (hmem : middle.nextGlobal text ∈ last.globals) :
    KeepsString last middle text last.finished where
  global := global?_finished h hmem
  labels := Module.labels_of_global? (fun _ => definition?_finished h) (global?_finished h hmem)
  records := by
    intro block place recording kind operand hat hrecords
    obtain ⟨operand', hkept⟩ := hrecords.renumbered (numbering last.blocks)
    refine ⟨last.entry, _, operand', definitions_finished h, ?_, hkept⟩
    rw [entry, instructionAt?_renumber, hat]
    rfl

/-- The text of a finished module spells a module that keeps the strings too. -/
theorem keepsString_canonical (h : last.Sound additions)
    (hmem : middle.nextGlobal text ∈ last.globals) :
    KeepsString last middle text last.finished.canonical where
  global := global?_finished h hmem
  labels := by
    refine Module.labels_of_global? (fun callee hcatalog => ?_) (global?_finished h hmem)
    rw [Module.definition?_canonical (names_finished h), definition?_finished h hcatalog]
    rfl
  records := by
    intro block place recording kind operand hat hrecords
    obtain ⟨entry, kept, operand', hentry, hplace, hkept⟩ :=
      (keepsString_finished h hmem).records hat hrecords
    refine ⟨entry.canonical, kept.canonical, operand'.canonical, ?_, ?_, hkept.canonical⟩
    · rw [Module.definitions_canonical, hentry]
      rfl
    · rw [instructionAt?_canonical, hplace]
      rfl

/-- Labels of output keep their texts from the builder to the end of a run. A string that any step
of a session adds, by itself or as the label of a record, has a name of its own and is never
overwritten. The finished module has it, and so has what is loaded from the text of this module, if
strings are shorter than half of the address space, as all are that a program holds. A call that
records under the string stays where it was built, and what it records has exactly the text as its
label if this has no zero character. What plain steps build is loaded. -/
theorem labels_of_finish {name : String} {qubits results : Int64} {module : Module}
    (hcreate : create name qubits.toInt results.toInt = .ok first)
    (hsession : Session BuildStep.Any first last) (hfinish : last.finish = .ok module) :
    (∀ (middle : Builder) (step : BuildStep) (text : String), Includes first last middle step →
      step.string? = some text →
      (∀ (later : Builder) (other : BuildStep) (otherText : String),
        Includes (middle.after step.run) last later other → other.string? = some otherText →
        (later.nextGlobal otherText).name ≠ (middle.nextGlobal text).name) ∧
      (step = .addString text → middle.answer step.run = .ok (.value (middle.stringValue text))) ∧
      (∀ (kind : RecordKind) (value : Value) (reply : Reply),
        step = .record kind value (some text) → middle.answer step.run = .ok reply →
        ∃ recording operand, operand.value = value ∧
          instructionAt? last.blocks middle.current middle.currentLength = some recording ∧
          recording.Records kind operand (middle.stringValue text)) ∧
      KeepsString last middle text module ∧
      ∀ loaded : Module, (∀ global ∈ module.globals, global.bytes.length < 2 ^ 63) →
        Module.load module.text = .ok loaded → KeepsString last middle text loaded) ∧
    (Session BuildStep.Plain first last → ∃ loaded, Module.load module.text = .ok loaded) := by
  refine ⟨?_, fun hplain => ⟨_, load_finished hcreate hplain hfinish⟩⟩
  obtain ⟨-, rfl⟩ := finish_eq_ok hfinish
  have hany : ∀ step, BuildStep.Any step → step.Within .any := fun step _ => within_any step
  have hsound : last.Sound .any := sound_of_session hcreate hsession hany
  intro middle step text hincludes hstring
  have hmem : middle.nextGlobal text ∈ last.globals :=
    (globals_prefix_of_includes hincludes hstring).subset
      (List.mem_append_right _ (List.mem_singleton_self _))
  refine ⟨fun later other otherText hlater _ => name_nextGlobal_ne hstring hlater, ?_, ?_,
    keepsString_finished hsound hmem, ?_⟩
  · rintro rfl
    rfl
  · rintro kind value reply rfl hanswer
    have hmiddle : middle.Sound .any := sound_of_session hcreate hincludes.before hany
    exact instructionAt?_of_record hmiddle.current hincludes hanswer
  · intro loaded hheld hload
    obtain ⟨hparse, -⟩ := Module.load_eq_ok_iff.mp hload
    have hcount : last.finished.attributeGroups.length ≤ UInt32.size :=
      (attributeGroups_finished hsound).trans (by decide)
    rw [Module.eq_canonical_of_parse (formed_finished hsound hheld) hcount hparse]
    exact keepsString_canonical hsound hmem

/-- A text with a quotation mark, a backslash, a control character and characters of two, three and
four bytes. -/
def oddText : String := "\"\\\x07é∞😀"

/-- Two strings for the same text, the first of them as a label. -/
def oddSteps : List BuildStep :=
  [.record .int (.int 3) (some oddText), .addString oddText, .ret]

def odd : Builder := small.afterAll oddSteps

theorem labels_odd :
    create "small" (1 : Int64).toInt (1 : Int64).toInt = .ok small ∧
    Session BuildStep.Any small odd ∧ odd.finish = .ok odd.finished ∧
    (∃ operand recording, recording.Records .int operand (small.stringValue oddText) ∧
      instructionAt? odd.blocks "entry" 0 = some recording) ∧
    odd.finished.Labels (small.stringValue oddText) oddText ∧
    ∃ loaded, Module.load odd.finished.text = .ok loaded ∧
      loaded.Labels (small.stringValue oddText) oddText := by
  have hcreate : create "small" (1 : Int64).toInt (1 : Int64).toInt = .ok small := by rfl
  have hplain : ∀ step ∈ oddSteps, step.Plain := by
    have hfits : Text.Fits oddText := by decide +kernel
    simp only [oddSteps, List.forall_mem_cons]
    exact ⟨⟨fun _ hty => Option.some.inj hty ▸ rfl, fun _ htext => Option.some.inj htext ▸ hfits⟩,
      hfits, trivial, fun _ hnil => absurd hnil List.not_mem_nil⟩
  have hsession : ∀ {kind : BuildStep → Prop}, (∀ step ∈ oddSteps, kind step) →
      Session kind small odd := fun hkind => session_afterAll (by decide) hkind small
  have hfinish : odd.finish = .ok odd.finished := finish_of_terminated (by decide +kernel)
  have hrest : Session BuildStep.Any
      (small.after (BuildStep.record .int (.int 3) (some oddText)).run) odd :=
    session_afterAll (by decide : ∀ step ∈ oddSteps.tail, step.isStructured = false)
      (fun _ _ => trivial) _
  obtain ⟨hstrings, hloads⟩ := labels_of_finish hcreate (hsession fun _ _ => trivial) hfinish
  obtain ⟨loaded, hload⟩ := hloads (hsession hplain)
  obtain ⟨-, -, hrecord, hkeeps, hloaded⟩ := hstrings small (.record .int (.int 3) (some oddText))
    oddText ⟨rfl, .refl small, hrest⟩ rfl
  obtain ⟨recording, operand, -, hat, hrecords⟩ := hrecord .int (.int 3) .done rfl (by rfl)
  have hzero : '\x00' ∉ oddText.toList := by decide
  have hheld : ∀ global ∈ odd.finished.globals, global.bytes.length < 2 ^ 63 := by decide +kernel
  exact ⟨hcreate, hsession fun _ _ => trivial, hfinish, ⟨operand, recording, hrecords, hat⟩,
    hkeeps.labels hzero, loaded, hload, (hloaded loaded hheld hload).labels hzero⟩

end Builder

end QuantumIR
