import QuantumIR.Proofs.Structured.Points

/-!
Structured programs are compiled correctly. Each statement adds code that does what the statement
means when it is interpreted directly, and pieces of code with their meanings are put together as
the statements are, to any depth.
-/

namespace QuantumIR

open Builder Building

variable {α β : Type} {builder later last : Builder} {frame : Frame} {qubits results : Nat}

/-- A value that stands for the same thing everywhere: no register, no integer, no negative index. -/
def Value.IsConstant : Value → Prop
  | .reg _ | .int _ => False
  | .address index => 0 ≤ index.toInt
  | .double _ | .null | .global _ | .firstByte _ _ => True

theorem Value.isConstant_ofIndex {index : Nat} (h : index < 2 ^ 63) :
    (ofIndex index).IsConstant := by
  rw [ofIndex_eq h]
  split
  · trivial
  · rw [IsConstant, Int64.toInt_ofNat_of_lt h]
    exact Int.natCast_nonneg index

/-- A static index is the index of its pointer. -/
theorem Value.index?_ofIndex {index : Nat} (h : index < 2 ^ 63) :
    (ofIndex index).index? = some index := by
  rw [ofIndex_eq h]
  split
  · next hzero =>
    subst hzero
    rfl
  · rw [index?, Int64.toInt_ofNat_of_lt h, if_pos (Int.natCast_nonneg index), Int.toNat_natCast]

theorem Value.IsConstant.datum {value : Value} (h : value.IsConstant) (frame : Frame) (ty : Ty) :
    frame.datum ty value = .ok value.constant := by
  cases value with
  | reg name | int n => exact absurd h id
  | address index => exact if_pos h
  | _ => rfl

theorem Value.IsConstant.renameValue {value : Value} (h : value.IsConstant)
    (names : Bindings String String) : Builder.renameValue names value = value := by
  cases value with
  | reg name => exact absurd h id
  | _ => rfl

/-- The arguments of a call to the catalog stand for some data, wherever the call is and however
its registers are named. -/
def PassesData (callee : Intrinsic) (args : List Value) (data : List Datum) : Prop :=
  ∀ (names : Bindings String String) (frame : Frame),
    ((typedArgs callee args).map fun arg => { arg with value := renameValue names arg.value }).mapM
      frame.operand = .ok data

theorem mapM_operand {operands : List Operand} (h : ∀ arg ∈ operands, arg.value.IsConstant)
    (frame : Frame) :
    operands.mapM frame.operand = .ok (operands.map fun arg => arg.value.constant) := by
  induction operands with
  | nil => rfl
  | cons arg rest ih =>
    obtain ⟨harg, hrest⟩ := List.forall_mem_cons.mp h
    rw [List.mapM_cons, Frame.operand, harg.datum, ih hrest]
    rfl

/-- Constant arguments of a call to the catalog are passed as they are. -/
theorem passesData_constants {callee : Intrinsic} {args : List Value}
    (hlength : args.length = callee.signature.params.length) (h : ∀ arg ∈ args, arg.IsConstant) :
    PassesData callee args (args.map Value.constant) := by
  intro names frame
  have hmem : ∀ arg ∈ typedArgs callee args, arg.value.IsConstant := by
    intro arg harg
    obtain ⟨⟨ty, value⟩, hpair, rfl⟩ := List.mem_map.mp harg
    exact h value (List.of_mem_zip hpair).2
  have hsame : (typedArgs callee args).map (fun arg =>
      { arg with value := renameValue names arg.value }) = typedArgs callee args := by
    refine (List.map_congr_left ?_).trans (List.map_id _)
    intro arg harg
    rw [(hmem arg harg).renameValue]
    rfl
  have hvalues : (typedArgs callee args).map (fun arg => arg.value.constant) =
      args.map Value.constant := by
    have hsnd : (callee.signature.params.zip args).map Prod.snd = args :=
      List.map_snd_zip (by omega)
    rw [typedArgs, List.map_map]
    conv_rhs => rw [← hsnd, List.map_map]
    rfl
  rw [hsame, mapM_operand hmem, hvalues]

/-- The length of an array is passed as its word, and its label as it is. -/
theorem passesData_array {label : Value} (h : label.IsConstant) (length : Int64) :
    PassesData (.record .array) [.int length, label]
      [.int 64 (Word.truncate length 64), label.constant] := by
  intro names frame
  have hlabel := h.datum frame .label
  change [Operand.mk .i64 (.int length), ⟨.label, renameValue names label⟩].mapM frame.operand = _
  rw [h.renameValue, List.mapM_cons, List.mapM_cons, Frame.operand, Frame.operand, hlabel]
  rfl

namespace Frame

theorem read_bind (name : String) (datum : Datum) (frame : Frame) :
    (frame.bind name datum).read name = .ok datum := by
  rw [read, bind, Bindings.get?_set, if_pos rfl]

end Frame

/-- Wherever code was built, a machine follows a direct interpretation through it. -/
def Simulates (builder later : Builder) (meaning : Option (List Bool) → Interpreting Unit) : Prop :=
  ∀ (last : Builder) (limits : Limits) (stream : Option (List Bool)) (frame : Frame)
    (state : RunState) (ledger : Ledger),
    Later .catalog later last → last.Sound .catalog → limits.steps = none →
    frame.At last builder → ledger.Agrees stream state →
    Follows last limits stream ⟨[frame], state⟩ ledger.operations
      (fun _ next => next.At last later) ((meaning stream).run.run ledger)

/-- A building action never fails, and adds code that does what an interpretation does. -/
def Compiles (qubits results : Nat) (action : Building α)
    (meaning : Option (List Bool) → Interpreting Unit) : Prop :=
  ∀ builder : Builder, builder.Ready qubits results → ∃ a later, Does action builder a later ∧
    Continues .catalog builder later ∧ Simulates builder later meaning

theorem Builder.Ready.of_changes (h : builder.Ready qubits results)
    (hchanges : Later .catalog builder later) (hopen : later.IsOpen later.current) :
    later.Ready qubits results where
  sound := h.sound.run hchanges
  isOpen := hopen
  qubits := hchanges.extends.qubitCount.trans h.qubits
  results := hchanges.extends.resultCount.trans h.results

theorem Builder.Ready.continues (h : builder.Ready qubits results)
    (hcontinues : Continues .catalog builder later) : later.Ready qubits results :=
  h.of_changes hcontinues.changes hcontinues.isOpen

/-- A new block leaves the current one open. -/
theorem Builder.Ready.opens {label : String} (h : builder.Ready qubits results)
    (hopens : Opens .catalog builder label later) : later.Ready qubits results := by
  refine h.of_changes hopens.changes ?_
  rw [hopens.current]
  exact (isOpen_congr (hopens.code _)).mpr h.isOpen

/-- An empty block is open. -/
theorem Builder.Ready.turns {middle : Builder} {label : String} (h : builder.Ready qubits results)
    (hchanges : Later .catalog builder middle) (hturns : Turns .catalog middle label later)
    (hcode : middle.code label = []) : later.Ready qubits results := by
  refine h.of_changes (hchanges.trans hturns.changes) (isOpen_of_code_eq_nil ?_)
  rw [hturns.current, hturns.code, hcode]

namespace Compiles

variable {meaning meaning' : Option (List Bool) → Interpreting Unit}

theorem pure (a : α) :
    Compiles qubits results (Pure.pure a : Building α) fun _ => Pure.pure () :=
  fun builder hready => ⟨a, builder, .pure a builder, .refl hready.isOpen,
    fun _ _ _ _ _ _ _ _ _ hat hagrees => Follows.pure hat hagrees⟩

/-- Code that was built one piece after the other does one thing after the other. -/
theorem bind {action : Building α} {next : α → Building β}
    (h : Compiles qubits results action meaning)
    (h' : ∀ a, Compiles qubits results (next a) meaning') :
    Compiles qubits results (action >>= next) fun stream =>
      meaning stream >>= fun _ => meaning' stream := by
  intro builder hready
  obtain ⟨a, middle, hdoes, hcontinues, hsimulates⟩ := h builder hready
  obtain ⟨b, later, hdoes', hcontinues', hsimulates'⟩ :=
    h' a middle (hready.continues hcontinues)
  refine ⟨b, later, hdoes.bind hdoes', hcontinues.trans hcontinues', ?_⟩
  intro last limits stream frame state ledger hlast hsound hsteps hat hagrees
  refine (hsimulates last limits stream frame state ledger (hcontinues'.changes.trans hlast) hsound
    hsteps hat hagrees).bind ?_
  intro _ next state' after hat' hagrees'
  exact hsimulates' last limits stream next state' after hlast hsound hsteps hat' hagrees'

/-- Code that was built for the items of a list in their order does one thing for each of them. -/
theorem forM {γ : Type} {items : List γ} {action : γ → Building Unit}
    {does : Option (List Bool) → γ → Interpreting Unit}
    (h : ∀ item ∈ items, Compiles qubits results (action item) fun stream => does stream item) :
    Compiles qubits results (items.forM action) fun stream => items.forM (does stream) := by
  induction items with
  | nil => exact .pure ()
  | cons item items ih =>
    obtain ⟨hitem, hitems⟩ := List.forall_mem_cons.mp h
    exact hitem.bind fun _ => ih hitems

end Compiles

/-- A call to the catalog with arguments that stand for the same data everywhere follows what its
function does. What it returns is in its register afterwards. -/
theorem follows_appended {limits : Limits} {stream : Option (List Bool)} {state : RunState}
    {ledger : Ledger} {result : Option String} {callee : Intrinsic} {args : List Value}
    {data : List Datum} {meaning : Interpreting β} (effect : β → Effect)
    (happends : Appends .catalog builder
      (.call result callee.signature.ret callee.name (typedArgs callee args)) later)
    (hdata : PassesData callee args data)
    (hlast : Later .catalog later last) (hsound : last.Sound .catalog) (hsteps : limits.steps = none)
    (hat : frame.At last builder)
    (himplements : Implements stream (Run.perform last.finished callee data)
      (do return effect (← meaning)))
    (hagrees : ledger.Agrees stream state) :
    Follows last limits stream ⟨[frame], state⟩ ledger.operations
      (fun b next => next.At last later ∧ ∀ name datum, result = some name →
        (effect b).value = some datum →
          next.read (rename (numbering last.blocks) name) = .ok datum)
      ((do
        let b ← meaning
        modify fun known =>
          { known with operations := known.operations ++ (effect b).operation.toList }
        return b : Interpreting β).run.run ledger) := by
  obtain ⟨rest, hrest, hnext⟩ := hat.next happends hlast
  have hfollows := follows_call hsteps hsound hrest (hdata _ frame) himplements hagrees
  refine hfollows.mono ?_
  rintro b _ rfl
  constructor
  · exact hnext _ (by simp) (by simp)
  · rintro name datum rfl hdatum
    rw [hdatum]
    exact Frame.read_bind _ datum _

/-- Handing on no operation changes nothing. -/
theorem bind_handOn_none (meaning : Interpreting α) : (do
    let a ← meaning
    modify fun known =>
      { known with operations := known.operations ++ (none : Option Operation).toList }
    return a : Interpreting α) = meaning := by
  have hsame : (fun known : Ledger =>
      { known with operations := known.operations ++ (none : Option Operation).toList }) = id := by
    funext known
    exact congrArg (fun operations => { known with operations }) (List.append_nil _)
  have hpure : (modify id : Interpreting Unit) = Pure.pure () := rfl
  rw [hsame]
  simp [hpure]

/-- What a step of a structured program needs: so many qubits and results that each index is one
of a signed word. -/
structure Builder.Counted (qubits results : Nat) : Prop where
  qubits : qubits ≤ 2 ^ 63
  results : results ≤ 2 ^ 63

variable (hcounted : Counted qubits results)

include hcounted

theorem checkOperand_qubit (hready : builder.Ready qubits results) {index : Nat}
    (h : index < qubits) : builder.checkOperand ⟨.qubit, .ofIndex index⟩ = .ok () := by
  have hindex := Value.index?_ofIndex (h.trans_le hcounted.qubits)
  rw [← hready.qubits] at h
  simp only [checkOperand, hindex]
  exact if_pos h

theorem checkOperand_result (hready : builder.Ready qubits results) {index : Nat}
    (h : index < results) : builder.checkOperand ⟨.result, .ofIndex index⟩ = .ok () := by
  have hindex := Value.index?_ofIndex (h.trans_le hcounted.results)
  rw [← hready.results] at h
  simp only [checkOperand, hindex]
  exact if_pos h

theorem checkOperand_args (hready : builder.Ready qubits results) {operation : Operation}
    (h : operation.InRange qubits results) :
    ∀ arg ∈ typedArgs operation.callee operation.args, builder.checkOperand arg = .ok () := by
  have hqubits : ∀ qubit ∈ operation.qubits,
      builder.checkOperand ⟨.qubit, .ofIndex qubit⟩ = .ok () :=
    fun qubit hqubit => checkOperand_qubit hcounted hready (h.qubits qubit hqubit)
  have hresult : ∀ result ∈ operation.result?,
      builder.checkOperand ⟨.result, .ofIndex result⟩ = .ok () :=
    fun result hresult => checkOperand_result hcounted hready (h.result result hresult)
  have hdouble : ∀ theta, builder.checkOperand ⟨.double, .double theta⟩ = .ok () := fun _ => rfl
  cases operation <;>
    simp_all [typedArgs, Operation.callee, Operation.args, Operation.qubits, Operation.result?,
      Intrinsic.signature]

theorem isConstant_args {operation : Operation} (h : operation.InRange qubits results) :
    ∀ arg ∈ operation.args, arg.IsConstant := by
  have hqubits : ∀ qubit ∈ operation.qubits, (Value.ofIndex qubit).IsConstant :=
    fun qubit hqubit => Value.isConstant_ofIndex ((h.qubits qubit hqubit).trans_le hcounted.qubits)
  have hresult : ∀ result ∈ operation.result?, (Value.ofIndex result).IsConstant :=
    fun result hresult =>
      Value.isConstant_ofIndex ((h.result result hresult).trans_le hcounted.results)
  have hdouble : ∀ theta, (Value.double theta).IsConstant := fun _ => trivial
  cases operation <;> simp_all [Operation.args, Operation.qubits, Operation.result?]

omit hcounted in
theorem length_args (operation : Operation) :
    operation.args.length = operation.callee.signature.params.length := by
  cases operation <;> rfl

/-- An operation is compiled to the call that becomes it. -/
theorem compiles_perform (operation : Operation) (h : operation.InRange qubits results) :
    Compiles qubits results (Building.perform operation.callee operation.args)
      fun stream => Interpreting.perform stream operation := by
  intro builder hready
  obtain ⟨result, later, hdoes, happends, -⟩ :=
    does_intrinsic hready (length_args operation) (checkOperand_args hcounted hready h)
  refine ⟨(), later, hdoes.bind (.pure () later), happends.continues rfl, ?_⟩
  intro last limits stream frame state ledger hlast hsound hsteps hat hagrees
  have himplements : Implements stream
      (Run.perform last.finished operation.callee (operation.args.map Value.constant)) (do
        let _ ← Interpreting.measureFor stream operation
        return .ofOperation operation) :=
    Run.implements_perform _ h hcounted.qubits hcounted.results
  have hdata := passesData_constants (length_args operation) (isConstant_args hcounted h)
  have hfollows := follows_appended (fun _ => .ofOperation operation) happends hdata hlast hsound
    hsteps hat himplements hagrees
  have hmeaning : Interpreting.perform stream operation = (do
      let b ← Interpreting.measureFor stream operation
      modify fun known => { known with operations := known.operations ++ [operation] }
      return b) := by
    rw [Interpreting.perform]
    simp
  beta_reduce
  rw [hmeaning]
  exact hfollows.mono fun _ _ hnext => hnext.1

omit hcounted

/-- What a builder adds beside its blocks does not matter to the code that comes next. -/
theorem Builder.Appends.of_blocks {middle : Builder} {instruction : Instruction}
    (h : Appends .catalog middle instruction later) (hchanges : Later .catalog builder middle)
    (hblocks : middle.blocks = builder.blocks) (hcurrent : middle.current = builder.current) :
    Appends .catalog builder instruction later where
  changes := hchanges.trans h.changes
  labels := h.labels.trans (congrArg (List.map Block.label) hblocks)
  current := h.current.trans hcurrent
  code := fun label => by rw [h.code, hcurrent, code_congr hblocks]

/-- A label of output is added as a string, and found again in the finished module. -/
theorem does_label (text : Option String) (builder : Builder) : ∃ value later,
    Does (Building.label text) builder value later ∧ Later .catalog builder later ∧
      later.blocks = builder.blocks ∧ later.current = builder.current ∧ value.IsConstant ∧
      (∀ middle : Builder, middle.checkOperand ⟨.label, value⟩ = .ok ()) ∧
      ∀ last, Later .catalog later last → last.Sound .catalog →
        Run.label last.finished value.constant = .ok (text.map Text.beforeZero) := by
  cases text with
  | none =>
    exact ⟨.null, builder, .pure _ _, .refl, rfl, rfl, trivial, fun _ => rfl, fun _ _ _ => rfl⟩
  | some text =>
    refine ⟨_, _, ⟨rfl, rfl⟩, .single (.string builder text trivial), rfl, rfl, trivial,
      fun _ => rfl, ?_⟩
    intro last hlast hsound
    have hmem := hlast.extends.globals.subset
      (List.mem_append_right builder.globals (List.mem_singleton_self _))
    have hglobal := global?_finished hsound hmem
    have htext := GlobalString.text_eq
      ⟨toString builder.globals.length, Text.utf8 text.toList ++ [0]⟩ rfl
    rw [Value.constant, Run.label, hglobal, Option.map_some, ← htext]

/-- A record is compiled to a string for its label and the call that records. -/
theorem compiles_recordOf {kind : RecordKind} {value : Value} {datum : Datum} {text : Option String}
    {meaning : Interpreting Unit}
    (hcheck : ∀ labelled : Builder, labelled.Ready qubits results → ∀ labelValue,
      labelled.checkOperand ⟨.label, labelValue⟩ = .ok () →
      ∀ arg ∈ typedArgs (.record kind) [value, labelValue], labelled.checkOperand arg = .ok ())
    (hdata : ∀ labelValue : Value, labelValue.IsConstant →
      PassesData (.record kind) [value, labelValue] [datum, labelValue.constant])
    (himplements : ∀ (module : Module) (labelDatum : Datum) (stream : Option (List Bool)),
      Run.label module labelDatum = .ok (text.map Text.beforeZero) →
      Implements stream (Run.perform module (.record kind) [datum, labelDatum]) (do
        let _ ← meaning
        return .none)) :
    Compiles qubits results (Building.record kind value text) fun _ => meaning := by
  intro builder hready
  obtain ⟨labelValue, labelled, hlabel, hchanges, hblocks, hcurrent, hconstant, hlabelled, htext⟩ :=
    does_label text builder
  have hready' : labelled.Ready qubits results := by
    refine hready.of_changes hchanges ?_
    rw [hcurrent]
    exact (isOpen_congr (congrFun (code_congr hblocks) _)).mpr hready.isOpen
  have hargs := hcheck labelled hready' labelValue (hlabelled labelled)
  have hlength : [value, labelValue].length = (Intrinsic.record kind).signature.params.length := by
    cases kind <;> rfl
  obtain ⟨name, later, hdoes, happends, -⟩ := does_intrinsic hready' hlength hargs
  have happends' := happends.of_blocks hchanges hblocks hcurrent
  refine ⟨(), later, hlabel.bind (hdoes.bind (.pure () later)), happends'.continues rfl, ?_⟩
  intro last limits stream frame state ledger hlast hsound hsteps hat hagrees
  have hfollows := follows_appended (fun _ => .none) happends' (hdata labelValue hconstant) hlast
    hsound hsteps hat
    (himplements _ _ stream (htext last (happends.changes.trans hlast) hsound)) hagrees
  have hsilent := bind_handOn_none meaning
  rw [← hsilent]
  exact hfollows.mono fun _ _ hnext => hnext.1

/-- The length of an array is compiled to the call that records it. -/
theorem compiles_recordArray (length : Int64) (text : Option String) :
    Compiles qubits results (Building.record .array (.int length) text)
      fun _ => Interpreting.put (.array length.toInt) text := by
  apply compiles_recordOf
  · intro labelled _ labelValue hlabel
    have hlength : labelled.checkOperand ⟨.i64, .int length⟩ = .ok () := rfl
    simp [typedArgs, Intrinsic.signature, hlength, hlabel]
  · exact fun _ hconstant => passesData_array hconstant length
  · exact fun _ _ _ hlabel => Run.implements_recordArray hlabel length

include hcounted

/-- A recorded result is compiled to the call with its pointer. -/
theorem compiles_record {result : Nat} (h : result < results) (text : Option String) :
    Compiles qubits results (Building.record .result (.ofIndex result) text)
      fun _ => Interpreting.record result text := by
  have hindex := h.trans_le hcounted.results
  apply compiles_recordOf
  · intro labelled hready labelValue hlabel
    have hresult := checkOperand_result hcounted hready h
    simp [typedArgs, Intrinsic.signature, hresult, hlabel]
  · intro labelValue hconstant
    have hconstants : ∀ arg ∈ [Value.ofIndex result, labelValue], arg.IsConstant := by
      simp [Value.isConstant_ofIndex hindex, hconstant]
    exact passesData_constants rfl hconstants
  · intro module labelDatum stream hlabel
    rw [Value.constant_ofIndex hindex]
    exact Run.implements_record hlabel result

omit hcounted

/-- A body of a structured branch is compiled to code that begins in the first of the new blocks and
goes on to another one of them. -/
theorem compiles_body {body : Building α} {meaning : Option (List Bool) → Interpreting Unit}
    {middle : Builder} {first : String} {fresh : List String} (next : String)
    (hbody : Compiles qubits results body meaning) (hready : builder.Ready qubits results)
    (hleaves : Leaves .catalog builder (first :: fresh) middle) (hfirst : first ∉ fresh)
    (hnext : next ∈ fresh) :
    ∃ start a finish later, Does (position first) middle () start ∧ Does body start a finish ∧
      Does (fallThrough next) finish () later ∧ Leaves .catalog builder fresh later ∧
      Later .catalog middle later ∧ start.current = first ∧ start.code first = [] ∧
      ∀ (last target : Builder) (limits : Limits) (stream : Option (List Bool)) (frame : Frame)
        (state : RunState) (ledger : Ledger),
        Later .catalog later last → last.Sound .catalog → limits.steps = none →
        frame.At last start → ledger.Agrees stream state → target.current = next →
        target.code next = [] →
        Follows last limits stream ⟨[frame], state⟩ ledger.operations
          (fun _ next => next.At last target) ((meaning stream).run.run ledger) := by
  obtain ⟨hlabel, -, hnil⟩ := hleaves.empty first List.mem_cons_self
  obtain ⟨hposition, hturns⟩ := does_position hlabel
  have hready' := hready.turns hleaves.changes hturns hnil
  obtain ⟨a, finish, hdoes, hcontinues, hsimulates⟩ := hbody _ hready'
  have hmem : next ∈ finish.labels := hcontinues.changes.extends.labels
    (hturns.changes.extends.labels (hleaves.empty next (List.mem_cons_of_mem first hnext)).1)
  obtain ⟨hfall, happends⟩ := does_fallThrough (hready'.continues hcontinues) hmem
  have hchanges := hturns.changes.trans (hcontinues.changes.trans happends.changes)
  refine ⟨_, a, finish, _, hposition, hdoes, hfall,
    hleaves.fill hfirst hturns hcontinues happends rfl, hchanges, rfl, hnil, ?_⟩
  intro last target limits stream frame state ledger hlast hsound hsteps hat hagrees hcurrent hcode
  have hfollows := hsimulates last limits stream frame state ledger
    (happends.changes.trans hlast) hsound hsteps hat hagrees
  refine hfollows.goOn ?_
  intro _ frame' state' ledger' hat' hagrees'
  have hmem' : next ∈ last.labels :=
    hlast.extends.labels (happends.changes.extends.labels hmem)
  exact follows_branch hsteps happends hlast hat' hcurrent hmem' hcode fun frame'' hat'' =>
    Follows.pure hat'' hagrees'.tick

/-- A structured branch is compiled to the blocks of its bodies: from where the branch is, a machine
goes on to one of them by the value of the condition, and from its end to what comes next. -/
theorem compiles_ifElse {onTrue : Building α} {onFalse : Building β}
    {one zero : Option (List Bool) → Interpreting Unit} (hOne : Compiles qubits results onTrue one)
    (hZero : Compiles qubits results onFalse zero) (hready : builder.Ready qubits results)
    (condition : Value) :
    ∃ answers later, Does (ifElse condition onTrue onFalse) builder answers later ∧
      Continues .catalog builder later ∧
      ∀ (last : Builder) (limits : Limits) (stream : Option (List Bool)) (frame : Frame)
        (state : RunState) (ledger : Ledger) (value : Bool),
        Later .catalog later last → last.Sound .catalog → limits.steps = none →
        frame.At last builder →
        frame.condition (renameValue (numbering last.blocks) condition) = .ok value →
        ledger.Agrees stream state →
        Follows last limits stream ⟨[frame], state⟩ ledger.operations
          (fun _ next => next.At last later)
          ((if value then one stream else zero stream).run.run ledger) := by
  obtain ⟨first, builder₁, hfirst, hopens₁⟩ := does_appendBlock "then" builder
  obtain ⟨second, builder₂, hsecond, hopens₂⟩ := does_appendBlock "else" builder₁
  have hready₂ := (hready.opens hopens₁).opens hopens₂
  have hmem₁ : first ∈ builder₂.labels := by simp [hopens₂.labels, hopens₁.labels]
  have hmem₂ : second ∈ builder₂.labels := by simp [hopens₂.labels]
  obtain ⟨hbranch, hbranches⟩ := does_branchIf hready₂ condition hmem₁ hmem₂
  obtain ⟨third, builder₃, hthird, hopens₃⟩ := does_appendBlock "continue"
    (builder₂.append (.branchIf condition first second))
  have hleaves := hbranches.leaves hopens₁ hopens₂ hopens₃ hready.sound.current rfl
  have hnew₁ : first ≠ second := by
    rintro rfl
    exact hopens₂.new (by simp [hopens₁.labels])
  have hnew₂ : first ≠ third ∧ second ≠ third := by
    have hnew := hopens₃.new
    rw [hbranches.labels] at hnew
    exact ⟨fun heq => hnew (heq ▸ hmem₁), fun heq => hnew (heq ▸ hmem₂)⟩
  obtain ⟨start₁, a, finish₁, builder₄, hposition₁, hone, hfall₁, hleaves₁, hchanges₁, hcurrent₁,
    hnil₁, hfollows₁⟩ := compiles_body third hOne hready hleaves
      (by simp [hnew₁, hnew₂.1]) (by simp)
  obtain ⟨start₂, b, finish₂, builder₅, hposition₂, hzero, hfall₂, hleaves₂, hchanges₂, hcurrent₂,
    hnil₂, hfollows₂⟩ := compiles_body third hZero hready hleaves₁
      (by simp [hnew₂.2]) (by simp)
  obtain ⟨hlabel, -, hnil⟩ := hleaves₂.empty third (by simp)
  obtain ⟨hposition, hturns⟩ := does_position hlabel
  have hdoes : Does (ifElse condition onTrue onFalse) builder (a, b) _ :=
    (does_ensureOpen hready.isOpen).bind (hfirst.bind (hsecond.bind (hbranch.bind (hthird.bind
      (hposition₁.bind (hone.bind (hfall₁.bind (hposition₂.bind (hzero.bind (hfall₂.bind
        (hposition.bind (.pure (a, b) _))))))))))))
  refine ⟨(a, b), _, hdoes, hleaves₂.continues hturns, ?_⟩
  intro last limits stream frame state ledger value hlast hsound hsteps hat hcondition hagrees
  have hlast₅ := hturns.changes.trans hlast
  have hlast₄ := hchanges₂.trans hlast₅
  have hlast₂ : Later .catalog _ last := hopens₃.changes.trans (hchanges₁.trans hlast₄)
  have hmem : ∀ label ∈ builder₂.labels, label ∈ last.labels := fun label hlabel =>
    hlast₂.extends.labels (hbranches.changes.extends.labels hlabel)
  have hat₂ : frame.At last builder₂ := hat.congr (hopens₂.current.trans hopens₁.current)
    ((hopens₂.code _).trans (hopens₁.code _))
  cases value with
  | true =>
    subst hcurrent₁
    exact follows_branchIf hsteps hbranches hlast₂ hat₂ hcondition rfl (hmem _ hmem₁) hnil₁
      fun next hnext => hfollows₁ last _ limits stream next _ ledger hlast₄ hsound hsteps hnext
        hagrees.tick rfl hnil
  | false =>
    subst hcurrent₂
    exact follows_branchIf hsteps hbranches hlast₂ hat₂ hcondition rfl (hmem _ hmem₂) hnil₂
      fun next hnext => hfollows₂ last _ limits stream next _ ledger hlast₅ hsound hsteps hnext
        hagrees.tick rfl hnil

/-- A truth value in a register is the condition that it says. -/
theorem condition_of_read {name : String} {value : Bool}
    (h : frame.read name = .ok (.bool value)) : frame.condition (.reg name) = .ok value := by
  change Except.bind (frame.read name) Datum.truth = .ok value
  rw [h]
  cases value <;> rfl

include hcounted

/-- A branch on a result is compiled to reading the result and branching on what was read. -/
theorem compiles_ifResult {onOne : Building α} {onZero : Building β}
    {one zero : Option (List Bool) → Interpreting Unit} {result : Nat} (h : result < results)
    (hOne : Compiles qubits results onOne one) (hZero : Compiles qubits results onZero zero) :
    Compiles qubits results (ifResult (.ofIndex result) onOne onZero) (fun stream => do
      if ← Interpreting.read stream result then one stream else zero stream) := by
  intro builder hready
  have hindex := h.trans_le hcounted.results
  have hargs : ∀ arg ∈ typedArgs .readResult [.ofIndex result],
      builder.checkOperand arg = .ok () := by
    have hresult := checkOperand_result hcounted hready h
    simp [typedArgs, Intrinsic.signature, hresult]
  have hlength : [Value.ofIndex result].length = Intrinsic.readResult.signature.params.length := rfl
  obtain ⟨name?, middle, hread, happends, hname⟩ := does_intrinsic hready hlength hargs
  cases name? with
  | none => exact absurd (hname.mp rfl) Bool.false_ne_true
  | some name =>
    have hcontinues := happends.continues rfl
    obtain ⟨answers, later, hbranch, hcontinues', hfollows⟩ :=
      compiles_ifElse hOne hZero (hready.continues hcontinues) (.reg name)
    refine ⟨answers, later, (hread.bind (.pure (Value.reg name) middle)).bind hbranch,
      hcontinues.trans hcontinues', ?_⟩
    intro last limits stream frame state ledger hlast hsound hsteps hat hagrees
    have hlast' := hcontinues'.changes.trans hlast
    have himplements : Implements stream
        (Run.perform last.finished .readResult ([.ofIndex result].map Value.constant))
        (do return .ofValue (.bool (← Interpreting.read stream result))) := by
      rw [List.map_singleton, Value.constant_ofIndex hindex]
      exact (Run.implements_read result).bind fun value => .pure _
    have hconstants : ∀ arg ∈ [Value.ofIndex result], arg.IsConstant := by
      simp [Value.isConstant_ofIndex hindex]
    have hdata := passesData_constants hlength hconstants
    have hfirst := follows_appended (fun value => .ofValue (.bool value)) happends hdata hlast'
      hsound hsteps hat himplements hagrees
    have hsilent := bind_handOn_none (Interpreting.read stream result)
    rw [show (do
      let value ← Interpreting.read stream result
      modify fun known => { known with
        operations := known.operations ++ (Effect.ofValue (.bool value)).operation.toList }
      return value) = Interpreting.read stream result from hsilent] at hfirst
    refine hfirst.bind ?_
    rintro value next state' ledger' ⟨hat', hvalue⟩ hagrees'
    exact hfollows last limits stream next state' ledger' value hlast hsound hsteps hat'
      (condition_of_read (hvalue name _ rfl rfl)) hagrees'

end QuantumIR
