import QuantumIR.Proofs.Execution.Catalog
import QuantumIR.Proofs.Verified.Starting
import QuantumIR.Proofs.Word.Arithmetic
import QuantumIR.Proofs.Word.Conversion

/-!
Words within their widths. Whatever computes an integer reduces it to its width, with one
exception: extension with zeros to a narrower width leaves the word as it is. Where no instruction
narrows in this way, every register of every run holds words of its width, and then a truth value
is the same truth wherever it is asked for.
-/

namespace QuantumIR

open Verification

namespace Datum

/-- An integer is a word of its width, and words have 1 to 64 bits. -/
def Masked : Datum → Prop
  | int width bits => (1 ≤ width.toNat ∧ width.toNat ≤ 64) ∧ bits < 2 ^ width.toNat
  | double _ | pointer _ => True

theorem masked_int {width : UInt32} {bits : Nat} (hwidth : 1 ≤ width ∧ width ≤ 64)
    (hbits : bits < Word.modulus width) : (int width bits).Masked := by
  refine ⟨⟨?_, ?_⟩, (Word.modulus_eq hwidth.2) ▸ hbits⟩
  · exact UInt32.le_iff_toNat_le.mp hwidth.1
  · exact UInt32.le_iff_toNat_le.mp hwidth.2

theorem masked_bool (value : Bool) : (bool value).Masked := by
  cases value <;> exact ⟨by decide, by decide⟩

theorem masked_ofConstant {ty : Ty} {value : Int64} {datum : Datum}
    (h : ofConstant ty value = .ok datum) : datum.Masked := by
  cases ty with
  | int width =>
    obtain ⟨_, hwidth, h⟩ := bind_eq_ok.mp h
    cases h
    exact masked_int (Word.checkWidth_eq_ok.mp hwidth) (Word.ofInt_lt_modulus _ width)
  | double =>
    cases h
    trivial
  | _ => cases h

end Datum

/-- Extension with zeros does not narrow. -/
def Instruction.Extends : Instruction → Prop
  | convert _ .zext source _ target => source ≤ target
  | _ => True

instance : (instruction : Instruction) → Decidable instruction.Extends
  | .convert _ .zext source _ target => inferInstanceAs (Decidable (source ≤ target))
  | .convert _ .sext .. | .convert _ .trunc .. | .call .. | .binary .. | .compare .. | .select ..
  | .branch _ | .branchIf .. | .ret _ => isTrue trivial

/-- No defined function extends with zeros to a narrower width. -/
def Module.Extends (module : Module) : Prop :=
  ∀ function ∈ module.definitions, ∀ instruction ∈ function.instructions, instruction.Extends

instance (module : Module) : Decidable module.Extends :=
  inferInstanceAs (Decidable (∀ function ∈ module.definitions,
    ∀ instruction ∈ function.instructions, instruction.Extends))

namespace Frame

variable {module : Module} {frame : Frame}

theorem masked_datum (h : frame.Holds Datum.Masked) {ty : Ty} {value : Value} {datum : Datum}
    (hdatum : frame.datum ty value = .ok datum) : datum.Masked := by
  cases value with
  | reg name =>
    rw [Frame.datum, read] at hdatum
    split at hdatum
    · next hfound =>
      cases hdatum
      exact h name datum hfound
    · cases hdatum
  | int value => exact Datum.masked_ofConstant hdatum
  | address index =>
    rw [Frame.datum] at hdatum
    split at hdatum
    · cases hdatum
      trivial
    · cases hdatum
  | double | null | global | firstByte =>
    cases hdatum
    trivial

theorem masked_of_computes (h : frame.Holds Datum.Masked) {instruction : Instruction}
    (hextends : instruction.Extends) {name : String} {datum : Datum}
    (hcomputes : frame.Computes instruction name datum) : datum.Masked := by
  cases hcomputes with
  | binary _ _ hbits =>
    obtain ⟨hwidth, hlt⟩ := Word.binary_lt_modulus hbits
    exact Datum.masked_int hwidth hlt
  | compare _ _ => exact Datum.masked_bool _
  | convert _ hbits =>
    obtain ⟨hwidth, hlt⟩ := Word.convert_lt_modulus hbits (by rintro rfl; exact hextends)
    exact Datum.masked_int hwidth hlt
  | select _ hdatum => exact masked_datum h hdatum

/-- A function of the catalog returns no integer but a truth value. -/
theorem masked_of_performs {intrinsic : Intrinsic} {args : List Datum} {state after : RunState}
    {effect : Effect} (h : Run.Performs module intrinsic args state effect after) {datum : Datum}
    (hdatum : effect.value = some datum) : datum.Masked := by
  cases h with
  | readResult | resultEqual =>
    cases hdatum
    exact Datum.masked_bool _
  | measure | resultOf | allocate =>
    cases hdatum
    trivial
  | operation | measureInto | record | setUp | release => cases hdatum

/-- What an instruction brings into a register is masked. -/
theorem masked_of_brings (h : frame.Holds Datum.Masked) {instruction : Instruction}
    (hextends : instruction.Extends) {call : Option CatalogCall}
    (hcall : ∀ made ∈ call, ∀ datum, made.effect.value = some datum → datum.Masked) {datum : Datum}
    (hbrings : frame.Brings module instruction call datum) : datum.Masked := by
  cases hbrings with
  | computed hcomputes => exact masked_of_computes h hextends hcomputes
  | passed _ _ hdatum | returned hdatum => exact masked_datum h hdatum
  | given hvalue => exact hcall _ rfl datum hvalue

end Frame

namespace Machine

variable {module : Module} {limits : Limits} {machine next : Machine}

/-- A step of a module that does not narrow by extension keeps registers masked. -/
theorem Steps.holds_masked {call : Option CatalogCall} (h : Steps module limits machine call next)
    (hextends : module.Extends) (hplaced : machine.Placed module)
    (hmasked : machine.Holds Datum.Masked) : next.Holds Datum.Masked := by
  have hcall : ∀ made ∈ call, ∀ datum, made.effect.value = some datum → datum.Masked := by
    rintro made hmade datum hdatum
    rcases h.state_cases with ⟨rfl, -⟩ | ⟨_, rfl, -, hperforms, -⟩
    · cases hmade
    · cases hmade
      exact Frame.masked_of_performs hperforms hdatum
  cases h with
  | execute hrest _ hexecutes =>
    obtain ⟨hframe, hcallers⟩ := List.forall_mem_cons.mp hmasked
    have hplace := hplaced _ List.mem_cons_self
    refine hexecutes.holds_next hframe hcallers ?_
    intro datum hbrings
    have hinstruction := hextends _ hplace.function _ (hplace.mem_instructions hrest)
    refine Frame.masked_of_brings ?_ hinstruction hcall hbrings
    exact hframe

end Machine

/-- A value is taken for the same truth by all that ask for one: by a comparison with false, a
branch, a choice and a record of output. -/
structure Frame.Settles (module : Module) (frame : Frame) (value : Value) (datum : Datum)
    (truth : Bool) : Prop where
  compared : ∀ result, Machine.executeLocal frame (.compare result .ne 1 value (.int 0)) =
    .ok (frame.bind result (.bool truth))
  branched : ∀ onTrue onFalse, Machine.executeLocal frame (.branchIf value onTrue onFalse) =
    frame.jump (if truth then onTrue else onFalse)
  selected : ∀ result ty onTrue onFalse,
    Machine.executeLocal frame (.select result value ty onTrue onFalse) = do
      return frame.bind result (← frame.datum ty (if truth then onTrue else onFalse))
  recorded : ∀ labelDatum, Run.perform module (.record .bool) [datum, labelDatum] = do
    Run.record module (.bool truth) labelDatum
    return .none

/-- A word of one bit settles what is true. -/
theorem Frame.settles_of_masked (module : Module) {frame : Frame} {value : Value} {bits : Nat}
    (hdatum : frame.datum .bool value = .ok (.int 1 bits)) (hmasked : (Datum.int 1 bits).Masked) :
    frame.Settles module value (.int 1 bits) (bits ≠ 0) := by
  have hbits : bits < 2 := hmasked.2
  have hword : frame.word 1 value = .ok bits := by
    rw [Frame.word]
    change frame.datum .bool value >>= _ = _
    rw [hdatum]
    rfl
  have hzero : frame.word 1 (.int 0) = .ok 0 := rfl
  have htruth : (Datum.int 1 bits).truth = .ok (bits ≠ 0 : Bool) := rfl
  have hcondition : frame.condition value = .ok (bits ≠ 0 : Bool) := by
    rw [Frame.condition, hdatum]
    rfl
  have hcompare : Word.compare .ne 1 bits 0 = (bits ≠ 0 : Bool) := by
    interval_cases bits <;> rfl
  exact {
    compared := by
      intro result
      rw [Machine.executeLocal, hword, hzero]
      exact congrArg (fun truth => Except.ok (frame.bind result (.bool truth))) hcompare
    branched := by
      intro onTrue onFalse
      rw [Machine.executeLocal, hcondition]
      rfl
    selected := by
      intro result ty onTrue onFalse
      rw [Machine.executeLocal, hcondition]
      rfl
    recorded := fun labelDatum => rfl }

namespace Module

variable {module : Module}

/-- Integers stay within their widths. In a run of a verified module that does not narrow by
extension, every integer in a register of any frame is a word of its width, which has 1 to 64 bits;
and what is a value of one bit is the same truth for branches, choices, records and comparisons. -/
theorem masked_of_verify (h : module.verify = .ok ()) (hextends : module.Extends)
    {limits : Limits} {entryPoint : Option String} {stream : Option (List Bool)}
    {start machine : Machine} {operations : List Operation}
    (hprepare : module.prepare entryPoint stream = .ok start)
    (hreaches : Machine.Reaches module limits start operations machine) :
    ∀ frame ∈ machine.frames,
      (∀ name width bits, frame.registers.get? name = some (.int width bits) →
        (1 ≤ width.toNat ∧ width.toNat ≤ 64) ∧ bits < 2 ^ width.toNat) ∧
      ∀ rest value bits, Frame.datum { frame with rest } .bool value = .ok (.int 1 bits) →
        ∃ truth, Frame.Settles module { frame with rest } value (.int 1 bits) truth := by
  obtain ⟨entry, qubits, results, hverified⟩ := verify_eq_ok_iff.mp h
  have hplaced := placed_of_prepare hverified hprepare
  obtain ⟨history, hruns, -⟩ := Machine.reaches_iff_runs.mp hreaches
  have hmasked : machine.Holds Datum.Masked := by
    obtain ⟨function, -, rfl⟩ := exists_start_of_prepare hprepare
    have hstart := Machine.holds_start Datum.Masked function stream
    clear hreaches
    induction hruns with
    | refl => exact hstart
    | step hruns hstep ih =>
      exact hstep.holds_masked hextends (hruns.placed hverified hplaced) ih
  intro frame hframe
  refine ⟨fun name width bits hregister => hmasked frame hframe name _ hregister, ?_⟩
  intro rest value bits hdatum
  exact ⟨_, Frame.settles_of_masked module hdatum (Frame.masked_datum (hmasked frame hframe) hdatum)⟩

/-- Extends the constant two with zeros, compares it with false and branches by it. -/
def extendingMain (source : UInt32) : Function where
  name := "main"
  ret := .void
  params := []
  attributes := [.flag "entry_point", .keyValue "required_num_qubits" "0",
    .keyValue "required_num_results" "0"]
  blocks := [
    ⟨"entry", [.convert "x" .zext source (.int 2) 1, .compare "t" .ne 1 (.reg "x") (.int 0),
      .branchIf (.reg "x") "yes" "no"]⟩,
    ⟨"yes", [.ret none]⟩,
    ⟨"no", [.ret none]⟩]

def extending (source : UInt32) : Module where
  name := "extending"
  source := none
  opaqueTypes := []
  globals := []
  functions := [extendingMain source]

theorem masked_extending_one : (extending 1).verify = .ok () ∧ (extending 1).Extends ∧
    ∃ start operations machine frame, (extending 1).prepare none none = .ok start ∧
      Machine.Reaches (extending 1) .standard start operations machine ∧
      machine.frames = [frame] ∧ frame.block.label = "no" ∧
      frame.registers.get? "x" = some (.int 1 0) ∧ 0 < 2 ^ (1 : UInt32).toNat ∧
      ∃ truth, Frame.Settles (extending 1) frame (.reg "x") (.int 1 0) truth := by
  have hverify : (extending 1).verify = .ok () := rfl
  have hprepare : (extending 1).prepare none none = .ok (.start (extendingMain 1) none) :=
    prepare_of_verify hverify rfl (by decide) none
  have hreaches : ∃ operations machine frame, Machine.Reaches (extending 1) .standard
      (.start (extendingMain 1) none) operations machine ∧ machine.frames = [frame] ∧
      frame.block.label = "no" ∧ frame.registers.get? "x" = some (.int 1 0) ∧
      frame.datum .bool (.reg "x") = .ok (.int 1 0) :=
    ⟨_, _, _, .step rfl (.step rfl (.step rfl (.refl _))), rfl, rfl, rfl, rfl⟩
  obtain ⟨operations, machine, frame, hreaches, hframes, hlabel, hregister, hdatum⟩ := hreaches
  have hextends : (extending 1).Extends := by decide
  have hmasked := masked_of_verify hverify hextends hprepare hreaches frame (by simp [hframes])
  exact ⟨hverify, hextends, _, operations, machine, frame, hprepare, hreaches, hframes, hlabel,
    hregister, (hmasked.1 _ _ _ hregister).2, hmasked.2 frame.rest _ _ hdatum⟩

/-- Extension to a narrower width leaves a word that has too many bits. A branch takes it for true,
a comparison with false does not. -/
theorem unmasked_extending_eight : (extending 8).verify = .ok () ∧
    ∃ start operations machine frame, (extending 8).prepare none none = .ok start ∧
      Machine.Reaches (extending 8) .standard start operations machine ∧
      machine.frames = [frame] ∧ frame.registers.get? "x" = some (.int 1 2) ∧
      frame.registers.get? "t" = some (.bool false) ∧ frame.block.label = "yes" := by
  have hverify : (extending 8).verify = .ok () := rfl
  have hprepare : (extending 8).prepare none none = .ok (.start (extendingMain 8) none) :=
    prepare_of_verify hverify rfl (by decide) none
  exact ⟨hverify, _, _, _, _, hprepare, .step rfl (.step rfl (.step rfl (.refl _))), rfl, rfl, rfl,
    rfl⟩

end Module

end QuantumIR
