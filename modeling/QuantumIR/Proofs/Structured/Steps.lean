import QuantumIR.Proofs.Building.Limits
import QuantumIR.Proofs.Structured.Layout

/-!
Building steps that succeed. Where only functions of the catalog are called and the current block
is open, a call to the catalog with indices in range succeeds and adds one instruction, and the
steps of a structured branch succeed one after the other.
-/

namespace QuantumIR

open Builder

variable {α β : Type}

/-- Only functions of the catalog are declared, each as the catalog says. -/
def Builder.Additions.catalog : Additions where
  instruction _ := True
  declaration name signature :=
    ∃ callee : Intrinsic, name = callee.name ∧ signature = callee.signature
  text _ := True

/-- A builder of so many qubits and results that calls the catalog only, with an open block. -/
structure Builder.Ready (qubits results : Nat) (builder : Builder) : Prop where
  sound : builder.Sound .catalog
  isOpen : builder.IsOpen builder.current
  qubits : builder.qubitCount = qubits
  results : builder.resultCount = results

namespace Building

/-- A building step succeeds, with an answer and with what it leaves of a builder. -/
structure Does (action : Building α) (builder : Builder) (a : α) (later : Builder) : Prop where
  answer : builder.answer action = .ok a
  after : builder.after action = later

variable {builder middle later : Builder} {qubits results : Nat}

theorem Does.pure (a : α) (builder : Builder) : Does (Pure.pure a) builder a builder :=
  ⟨rfl, rfl⟩

theorem Does.bind {action : Building α} {next : α → Building β} {a : α} {b : β}
    (h : Does action builder a middle) (h' : Does (next a) middle b later) :
    Does (action >>= next) builder b later where
  answer := by
    rw [answer_bind, h.answer, h.after]
    exact h'.answer
  after := by
    rw [after_bind, h.answer, h.after]
    exact h'.after

theorem does_get (builder : Builder) : Does get builder builder builder :=
  ⟨rfl, rfl⟩

theorem does_modify (f : Builder → Builder) (builder : Builder) :
    Does (modify f) builder () (f builder) :=
  ⟨rfl, rfl⟩

theorem does_check {test : Builder → Except BuildError α} {a : α} (h : test builder = .ok a) :
    Does (check test) builder a builder := by
  apply (does_get builder).bind
  rw [h]
  exact .pure a builder

theorem does_ensureOpen (h : builder.IsOpen builder.current) :
    Does ensureOpen builder () builder := by
  apply (does_get builder).bind
  rw [isTerminated_eq_false_iff.mpr h]
  exact .pure () builder

theorem does_push (h : builder.IsOpen builder.current) (instruction : Instruction) :
    Does (push instruction) builder () (builder.append instruction) :=
  (does_ensureOpen h).bind (does_modify _ builder)

theorem does_freshName (builder : Builder) : Does freshName builder builder.nextName
    { builder with nextValue := builder.nextValue + 1 } :=
  (does_get builder).bind ((does_modify _ builder).bind (.pure _ _))

theorem does_checkOperands {args : List Operand}
    (h : ∀ arg ∈ args, builder.checkOperand arg = .ok ()) :
    Does (args.forM fun arg => check (Builder.checkOperand · arg)) builder () builder := by
  induction args with
  | nil => exact .pure () builder
  | cons arg args ih =>
    obtain ⟨harg, hargs⟩ := List.forall_mem_cons.mp h
    exact (does_check harg).bind (ih hargs)

/-- A function of the catalog can be declared as often as wanted. -/
theorem does_declare (h : builder.Sound .catalog) (callee : Intrinsic) :
    ∃ later, Does (declare callee.name callee.signature) builder () later ∧
      later.blocks = builder.blocks ∧ later.current = builder.current := by
  have hname : callee.name ≠ entryName := by
    intro heq
    have hfound := callee.ofName?_name
    have hnone : Intrinsic.ofName? entryName = none := by decide
    rw [heq, hnone] at hfound
    cases hfound
  rw [declare, if_neg hname]
  cases hfind : builder.declarations.find? fun function => function.name = callee.name with
  | none =>
    refine ⟨{ builder with declarations := builder.declarations ++
      [declarationOf callee.name callee.signature] }, (does_get builder).bind ?_, rfl, rfl⟩
    simp only [hfind]
    exact does_modify _ builder
  | some known =>
    obtain ⟨name, signature, rfl, -, other, rfl, rfl⟩ :=
      h.declarations known (List.mem_of_find?_eq_some hfind)
    have hsame : other = callee := by
      have hnames : (declarationOf other.name other.signature).name = callee.name := by
        simpa using List.find?_some hfind
      change other.name = callee.name at hnames
      have hfound := other.ofName?_name
      rw [hnames, callee.ofName?_name] at hfound
      exact (Option.some.inj hfound).symm
    subst hsame
    refine ⟨builder, (does_get builder).bind ?_, rfl, rfl⟩
    have hdeclared : (⟨(declarationOf other.name other.signature).ret,
        (declarationOf other.name other.signature).params.map Param.ty⟩ : Signature) =
        other.signature := by
      rw [declarationOf_params]
      rfl
    simp only [hfind, hdeclared, ne_eq, not_true_eq_false, if_false]
    exact .pure () builder

theorem code_congr (h : later.blocks = builder.blocks) : later.code = builder.code := by
  funext label
  rw [code, code, block?, block?, h]

/-- A call of a declared function is added; unless it returns nothing, its value gets a number. -/
theorem does_addCall (h : builder.IsOpen builder.current) (name : String) (ret : Ty)
    (args : List Operand) : ∃ result later, Does (do
      let result ← if ret.isVoid then pure none else some <$> freshName
      push (.call result ret name args)
      return result.map Value.reg) builder (result.map Value.reg) later ∧
      later.blocks = (builder.append (.call result ret name args)).blocks ∧
      later.current = builder.current ∧ (result.isNone ↔ ret.isVoid) := by
  cases hvoid : ret.isVoid with
  | true =>
    refine ⟨none, builder.append (.call none ret name args), ?_, rfl, rfl, by simp⟩
    simp only [if_true, pure_bind]
    exact (does_push h _).bind (.pure _ _)
  | false =>
    have hopen : IsOpen { builder with nextValue := builder.nextValue + 1 } builder.current := h
    refine ⟨some builder.nextName, append { builder with nextValue := builder.nextValue + 1 }
      (.call (some builder.nextName) ret name args), ?_, rfl, rfl, by simp⟩
    simp only [Bool.false_eq_true, if_false, map_eq_pure_bind, bind_assoc, pure_bind]
    exact (does_freshName builder).bind ((does_push hopen _).bind (.pure _ _))

/-- Calls to the catalog are made of small changes. -/
theorem moves_intrinsic_catalog (callee : Intrinsic) (args : List Value) :
    Moves .catalog (intrinsic callee args) :=
  moves_intrinsic (fun _ _ => trivial) ⟨callee, rfl, rfl⟩

/-- A call to the catalog succeeds if its arguments are in range. -/
theorem does_intrinsic (h : builder.Ready qubits results) {callee : Intrinsic} {args : List Value}
    (hlength : args.length = callee.signature.params.length)
    (hargs : ∀ arg ∈ typedArgs callee args, builder.checkOperand arg = .ok ()) :
    ∃ result later, Does (intrinsic callee args) builder (result.map Value.reg) later ∧
      Appends .catalog builder (.call result callee.signature.ret callee.name (typedArgs callee args))
        later ∧ (result.isNone ↔ callee.signature.ret.isVoid) := by
  have hsignature : (⟨callee.signature.ret, (typedArgs callee args).map Operand.ty⟩ : Signature) =
      callee.signature := by
    rw [typedArgs, List.map_map, Function.comp_def, List.map_fst_zip (by omega)]
  obtain ⟨declared, hdeclare, hblocks, hcurrent⟩ := does_declare h.sound callee
  have hcode : ∀ label, declared.code label = builder.code label :=
    fun label => congrFun (code_congr hblocks) label
  have hopen : declared.IsOpen declared.current := by
    rw [hcurrent]
    exact (isOpen_congr (hcode _)).mpr h.isOpen
  obtain ⟨result, later, hadd, hblocks', hcurrent', hresult⟩ :=
    does_addCall hopen callee.name callee.signature.ret (typedArgs callee args)
  have hdoes : Does (intrinsic callee args) builder (result.map Value.reg) later := by
    rw [← hsignature] at hdeclare
    rw [intrinsic]
    simp only [hlength, ne_eq, not_true_eq_false, if_false]
    exact (does_ensureOpen h.isOpen).bind ((does_checkOperands hargs).bind (hdeclare.bind hadd))
  have hlabels : declared.labels = builder.labels := by rw [labels, labels, hblocks]
  have hmem : declared.current ∈ declared.labels := by
    rw [hlabels, hcurrent]
    exact h.sound.current
  refine ⟨result, later, hdoes, ⟨?_, ?_, hcurrent'.trans hcurrent, ?_⟩, hresult⟩
  · rw [← hdoes.after]
    exact moves_intrinsic_catalog callee args builder
  · rw [labels, hblocks', ← hlabels]
    exact labels_append
  · intro label
    rw [code_congr hblocks', code_append hmem, hcurrent, hcode]

/-- An instruction that a builder accepts and that binds nothing is added to the open block. -/
theorem appends_push (h : builder.Ready qubits results) (instruction : Instruction)
    (hstands : builder.Stands instruction) (hresult : instruction.result? = none) :
    Does (push instruction) builder () (builder.append instruction) ∧
      Appends .catalog builder instruction (builder.append instruction) := by
  have hdoes := does_push h.isOpen instruction
  refine ⟨hdoes, ?_, labels_append, rfl, code_append h.sound.current⟩
  rw [← hdoes.after]
  exact later_push hstands trivial hresult

theorem isNone_block? {label : String} (h : label ∈ builder.labels) :
    (builder.block? label).isNone = false := by
  rw [← Bool.not_eq_true, block?_isNone_iff]
  exact fun hnot => hnot h

theorem does_checkTarget {label : String} (h : label ∈ builder.labels) :
    Does (checkTarget label) builder () builder := by
  apply (does_get builder).bind
  rw [isNone_block? h]
  exact .pure () builder

/-- The current block goes on to another one. -/
theorem does_branch (h : builder.Ready qubits results) {target : String}
    (htarget : target ∈ builder.labels) : Does (branch target) builder ()
      (builder.append (.branch target)) ∧
      Appends .catalog builder (.branch target) (builder.append (.branch target)) := by
  obtain ⟨hdoes, happends⟩ := appends_push h (.branch target) htarget rfl
  exact ⟨(does_checkTarget htarget).bind hdoes, happends⟩

theorem does_fallThrough (h : builder.Ready qubits results) {target : String}
    (htarget : target ∈ builder.labels) : Does (fallThrough target) builder ()
      (builder.append (.branch target)) ∧
      Appends .catalog builder (.branch target) (builder.append (.branch target)) := by
  obtain ⟨hdoes, happends⟩ := does_branch h htarget
  refine ⟨(does_get builder).bind ?_, happends⟩
  rw [isTerminated_eq_false_iff.mpr h.isOpen]
  exact hdoes

theorem does_branchIf (h : builder.Ready qubits results) (condition : Value)
    {onTrue onFalse : String} (hTrue : onTrue ∈ builder.labels) (hFalse : onFalse ∈ builder.labels) :
    Does (branchIf condition onTrue onFalse) builder ()
      (builder.append (.branchIf condition onTrue onFalse)) ∧
    Appends .catalog builder (.branchIf condition onTrue onFalse)
      (builder.append (.branchIf condition onTrue onFalse)) := by
  obtain ⟨hdoes, happends⟩ :=
    appends_push h (.branchIf condition onTrue onFalse) ⟨hTrue, hFalse⟩ rfl
  exact ⟨(does_checkTarget hTrue).bind ((does_checkTarget hFalse).bind hdoes), happends⟩

/-- A new block gets a label of its own. -/
theorem does_appendBlock (label : String) (builder : Builder) : ∃ new later,
    Does (appendBlock label) builder new later ∧ Opens .catalog builder new later := by
  refine ⟨_, _, (does_get builder).bind ((does_modify _ builder).bind (.pure _ _)), ?_⟩
  refine ⟨.single (.block builder _ (freeLabel_not_mem builder _)), freeLabel_not_mem builder _, ?_,
    rfl, code_block _⟩
  rw [labels, labels, List.map_append]
  rfl

theorem does_position {label : String} (h : label ∈ builder.labels) :
    Does (position label) builder () { builder with current := label } ∧
      Turns .catalog builder label { builder with current := label } := by
  refine ⟨(does_get builder).bind ?_, ?_⟩
  · rw [isNone_block? h]
    exact does_modify _ builder
  · exact ⟨.single (.position builder label h), rfl, rfl, fun _ => rfl⟩

end Building

end QuantumIR
