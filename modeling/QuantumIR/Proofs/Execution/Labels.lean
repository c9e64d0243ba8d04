import QuantumIR.Proofs.Execution.Catalog
import QuantumIR.Proofs.Execution.Counted
import QuantumIR.Proofs.Execution.Stops
import QuantumIR.Proofs.Structured.Runs

/-!
Labels of output. A record that a run makes stays where it is among the records until the end, and a
record whose label is a pointer to a global string has the text of this string as its label.
-/

namespace QuantumIR

/-- To find the value for a record adds no record. -/
theorem Run.recorded_eq_ok {kind : RecordKind} {datum : Datum} {state after : RunState}
    {value : OutputValue} (h : Run.recorded kind datum state = .ok (value, after)) :
    value.kind = kind ∧ after.output = state.output := by
  cases Run.records_of_recorded h with
  | _ => exact ⟨rfl, rfl⟩

/-- The value for a record is found first, and nothing fails after that if the label has a text. -/
theorem Run.perform_record {module : Module} {labelDatum : Datum} {text : String}
    (hlabel : Run.label module labelDatum = .ok (some text)) (kind : RecordKind) (datum : Datum)
    (state : RunState) :
    Run.perform module (.record kind) [datum, labelDatum] state =
      (Run.recorded kind datum state).map fun found =>
        (.none, { found.2 with output := found.2.output.push ⟨found.1, some text⟩ }) := by
  change Except.bind (Run.recorded kind datum state) (fun found =>
    Except.bind (Run.record module found.1 labelDatum found.2) _) = _
  cases Run.recorded kind datum state with
  | error error => rfl
  | ok found =>
    change Except.bind (Except.bind (Run.ofExcept (Run.label module labelDatum) found.2) _) _ = _
    rw [hlabel]
    rfl

/-- Records are added at the end. -/
theorem Run.allows_output : Run.Allows fun before after =>
    before.output.toList <+: after.output.toList where
  refl _ := List.prefix_rfl
  trans _ _ _ := List.IsPrefix.trans
  useQubit _ _ := List.prefix_rfl
  useResult _ _ := List.prefix_rfl
  note _ _ := List.prefix_rfl
  output entry _ := by
    rw [Array.toList_push]
    exact List.prefix_append _ _
  store _ _ _ := List.prefix_rfl
  outcome _ _ := List.prefix_rfl
  allocate _ := List.prefix_rfl

namespace Machine

variable {module : Module} {limits : Limits} {operations operations' : List Operation}
  {machine last : Machine}

theorem output_prefix_of_step {frame : Frame} {callers : List Frame} {state : RunState}
    {operation : Option Operation}
    (h : step module limits frame callers state = .ok (operation, last)) :
    state.output.toList <+: last.state.output.toList := by
  obtain ⟨call, hsteps, -⟩ := step_eq_ok_iff.mp h
  cases hsteps with
  | execute _ htick hexecutes =>
    obtain rfl := eq_of_tick htick
    cases hexecutes with
    | perform _ _ _ hperform =>
      have hgrows := Run.allows_output.composable.perform module _ _ _ _ _ hperform
      exact hgrows
    | _ => exact List.prefix_rfl

/-- The records that there are at one time of a run are the first ones at any later time. -/
theorem Reaches.output_prefix (h : Reaches module limits machine operations last) :
    machine.state.output.toList <+: last.state.output.toList := by
  induction h with
  | refl machine => exact List.prefix_rfl
  | step hstep _ ih => exact (output_prefix_of_step hstep).trans ih

/-- A machine that stops comes after all others of its run. -/
theorem Reaches.goesOn {start : Machine} {outcome : Except EvalError RunMetadata}
    (h : Reaches module limits start operations machine)
    (hlast : Reaches module limits start operations' last)
    (hstops : last.outcome? module limits = some outcome) :
    ∃ rest, Reaches module limits machine rest last := by
  induction h generalizing operations' with
  | refl machine => exact ⟨operations', hlast⟩
  | step hstep _ ih =>
    cases hlast with
    | refl =>
      obtain ⟨error, hfails, -⟩ := outcome?_cons_eq_some_iff.mp hstops
      cases hstep.symm.trans hfails
    | step hstep' hrest =>
      cases hstep.symm.trans hstep'
      exact ih hrest

/-- In a run that comes to its end, the next instruction is executed at any time before. -/
theorem Reaches.exists_step {start : Machine} {frame : Frame} {callers : List Frame}
    {state : RunState} {metadata : RunMetadata}
    (h : Reaches module limits start operations ⟨frame :: callers, state⟩)
    (hlast : Reaches module limits start operations' last)
    (hends : last.outcome? module limits = some (.ok metadata)) :
    ∃ operation next rest, Machine.step module limits frame callers state = .ok (operation, next) ∧
      Reaches module limits next rest last := by
  obtain ⟨following, hfollowing⟩ := h.goesOn hlast hends
  cases hfollowing with
  | refl =>
    obtain ⟨error, -, herror⟩ := outcome?_cons_eq_some_iff.mp hends
    cases herror
  | step hstep hlater => exact ⟨_, _, _, hstep, hlater⟩

/-- What is left of a call that records an operand under a text: to read the operand and the value
that is recorded of it, and to add the record. -/
def recordUnder (text : String) (kind : RecordKind) (operand : Operand) (frame : Frame)
    (callers : List Frame) (state : RunState) : Except EvalError (Option Operation × Machine) := do
  let datum ← frame.operand operand
  let (value, state) ← Run.recorded kind datum state
  return (none, ⟨frame :: callers, { state with output := state.output.push ⟨value, some text⟩ }⟩)

/-- A call of a function that records comes to the label after the value. -/
theorem execute_record {frame : Frame} {callers : List Frame} {state : RunState}
    {result : Option String} {ret : Ty} {callee : String} {operand labelOperand : Operand}
    {kind : RecordKind} {datum : Datum} {text : String} (hnone : module.definition? callee = none)
    (hname : Intrinsic.ofName? callee = some (.record kind))
    (hdatum : frame.operand labelOperand = .ok datum)
    (hlabel : Run.label module datum = .ok (some text)) :
    execute module limits frame callers state (.call result ret callee [operand, labelOperand]) =
      recordUnder text kind operand frame callers state := by
  cases hoperand : frame.operand operand with
  | error error => simp [execute, recordUnder, hoperand, bind, Except.bind]
  | ok value =>
    have hargs : [operand, labelOperand].mapM frame.operand = .ok [value, datum] := by
      simp [hoperand, hdatum, bind, Except.bind, pure, Except.pure]
    rw [execute_perform hargs hnone hname, recordUnder, hoperand]
    rw [Run.perform_record hlabel]
    change _ = Except.bind (Run.recorded kind value state) _
    cases Run.recorded kind value state with
    | error error => rfl
    | ok found => cases result <;> rfl

/-- What recording an operand under a text comes to. -/
theorem recordUnder_eq_ok {frame : Frame} {callers : List Frame} {state : RunState}
    {operand : Operand} {kind : RecordKind} {text : String} {operation : Option Operation}
    {next : Machine}
    (h : recordUnder text kind operand frame callers state = .ok (operation, next)) :
    ∃ (value : OutputValue) (after : RunState), value.kind = kind ∧ after.output = state.output ∧
      next = ⟨frame :: callers, { after with output := after.output.push ⟨value, some text⟩ }⟩ := by
  obtain ⟨datum, -, h⟩ := Verification.bind_eq_ok.mp h
  obtain ⟨⟨value, after⟩, hrecorded, h⟩ := Verification.bind_eq_ok.mp h
  cases h
  obtain ⟨hkind, houtput⟩ := Run.recorded_eq_ok hrecorded
  exact ⟨value, after, hkind, houtput, rfl⟩

end Machine

/-- Whether an instruction is a call that records an operand under a label. -/
def Instruction.Records (instruction : Instruction) (kind : RecordKind) (operand : Operand)
    (label : Value) : Prop :=
  ∃ result ret callee ty, Intrinsic.ofName? callee = some (.record kind) ∧
    instruction = .call result ret callee [operand, ⟨ty, label⟩]

namespace Module

/-- Whether a value of a module labels output with a text: any call that records an operand under
this label adds a record of the text, or fails before it comes to the label, and the record is among
those that are known at the end of the run. -/
structure Labels (module : Module) (label : Value) (text : String) : Prop where
  step : ∀ {limits : Limits} {frame : Frame} {callers : List Frame} {state : RunState}
    {kind : RecordKind} {operand : Operand} {recording : Instruction} {rest : List Instruction},
    recording.Records kind operand label → frame.rest = recording :: rest →
    Machine.step module limits frame callers state = Machine.tick limits state >>=
      Machine.recordUnder text kind operand { frame with rest } callers
  output : ∀ {limits : Limits} {entryPoint : Option String} {stream : Option (List Bool)}
    {operations reached : List Operation} {metadata : RunMetadata} {start : Machine} {frame : Frame}
    {callers : List Frame} {state : RunState} {kind : RecordKind} {operand : Operand}
    {recording : Instruction} {rest : List Instruction},
    module.Stops limits entryPoint stream operations (.ok metadata) →
    module.prepare entryPoint stream = .ok start →
    Machine.Reaches module limits start reached ⟨frame :: callers, state⟩ →
    recording.Records kind operand label → frame.rest = recording :: rest →
    ∃ value, value.kind = kind ∧
      metadata.output[state.output.size]? = some ⟨value, some text⟩

variable {module : Module} {name text : String} {length : UInt64}

/-- A pointer to the first byte of a text that ends with a zero byte labels output with the text. -/
theorem labels_of_global? (hcatalog : ∀ callee, (Intrinsic.ofName? callee).isSome →
      module.definition? callee = none)
    (hglobal : module.global? name = some ⟨name, Text.utf8 text.toList ++ [0]⟩)
    (htext : '\x00' ∉ text.toList) : module.Labels (.firstByte name length) text := by
  have hlabel : Run.label module (.pointer (.global name)) = .ok (some text) := by
    have hread := GlobalString.text_eq ⟨name, Text.utf8 text.toList ++ [0]⟩ rfl
    rw [Text.beforeZero_of_not_mem htext] at hread
    simp only [Run.label, hglobal, hread]
  have hstep : ∀ {limits : Limits} {frame : Frame} {callers : List Frame} {state : RunState}
      {kind : RecordKind} {operand : Operand} {recording : Instruction} {rest : List Instruction},
      recording.Records kind operand (.firstByte name length) → frame.rest = recording :: rest →
      Machine.step module limits frame callers state = Machine.tick limits state >>=
        Machine.recordUnder text kind operand { frame with rest } callers := by
    rintro limits frame callers state kind operand _ rest ⟨result, ret, callee, ty, hname, rfl⟩ hrest
    have hnone := hcatalog callee (by rw [hname]; rfl)
    rw [Machine.step_cons hrest]
    exact congrArg _ (funext fun ticked => Machine.execute_record hnone hname rfl hlabel)
  refine ⟨hstep, ?_⟩
  intro limits entryPoint stream operations reached metadata start frame callers state kind operand
    recording rest hstops hprepare hreaches hrecords hnext
  rcases hstops.cases with ⟨error, -, -, herror⟩ | ⟨start', last, hprepare', hlast, houtcome⟩
  · cases herror
  cases hprepare.symm.trans hprepare'
  obtain ⟨operation, next, following, hstep', hlater⟩ := hreaches.exists_step hlast houtcome
  rw [hstep hrecords hnext] at hstep'
  obtain ⟨ticked, htick, hrecord⟩ := Verification.bind_eq_ok.mp hstep'
  obtain ⟨value, after, hkind, houtput, rfl⟩ := Machine.recordUnder_eq_ok hrecord
  refine ⟨value, hkind, ?_⟩
  obtain rfl := Machine.eq_of_tick htick
  have hprefix : (after.output.push ⟨value, some text⟩).toList <+: last.state.output.toList :=
    hlater.output_prefix
  have hsize : state.output.size = after.output.toList.length :=
    congrArg Array.size houtput.symm
  obtain ⟨more, hmore⟩ := hprefix
  rw [← Machine.metadata_of_outcome? houtcome]
  change last.state.output.toList[state.output.size]? = _
  rw [← hmore, Array.toList_push, List.append_assoc, hsize, List.getElem?_append_right le_rfl]
  simp

end Module

end QuantumIR
