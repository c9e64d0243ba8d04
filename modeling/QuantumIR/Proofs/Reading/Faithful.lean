import QuantumIR.Proofs.Reading.RoundTrip
import QuantumIR.Verification

/-!
Modules that come back from their canonical text as they are. The conditions are about what the
text cannot tell: which constants a type has, where a block ends, and which word is an attribute.
-/

namespace QuantumIR

open Reading Lexeme

namespace Ty

theorem isVoid_iff (ty : Ty) : ty.isVoid = true ↔ ty = .void := by
  cases ty <;> simp [isVoid]

theorem isDouble_iff (ty : Ty) : ty.isDouble = true ↔ ty = .double := by
  cases ty <;> simp [isDouble]

end Ty

/-- Whether a constant of a type is the one that its text spells: truth values are 0 and 1,
integers are no doubles, and only doubles are doubles. -/
def Value.Exact (value : Value) (ty : Ty) : Prop :=
  match value with
  | .int n => ty ≠ .double ∧ (ty = .bool → n = 0 ∨ n = 1)
  | .double _ => ty = .double
  | .firstByte _ length => length.toNat < 2 ^ 63
  | _ => True

instance Value.decidableExact : (value : Value) → (ty : Ty) → Decidable (value.Exact ty)
  | .int n, ty => inferInstanceAs (Decidable (ty ≠ .double ∧ (ty = .bool → n = 0 ∨ n = 1)))
  | .double _, ty => inferInstanceAs (Decidable (ty = .double))
  | .firstByte _ length, _ => inferInstanceAs (Decidable (length.toNat < 2 ^ 63))
  | .reg _, _ | .null, _ | .address _, _ | .global _, _ => isTrue trivial

theorem Value.Exact.writable {value : Value} {ty : Ty} (h : value.Exact ty) (hty : ty.Sized) :
    value.Writable ty := by
  cases value with
  | double x => exact ty.isDouble_iff.mpr h
  | address n => exact hty
  | firstByte name length => exact h
  | _ => trivial

theorem Value.Exact.canonical_eq {value : Value} {ty : Ty} (h : value.Exact ty) :
    value.canonical ty = value := by
  cases value with
  | int n =>
    obtain ⟨hdouble, hbool⟩ := h
    have hcanonical : (Value.int n).canonical ty =
        if ty = .bool then .int (if n = 0 then 0 else 1)
        else if ty.isDouble then .double (.ofInt n.toInt) else .int n := rfl
    rw [hcanonical]
    by_cases hty : ty = .bool
    · rw [if_pos hty]
      rcases hbool hty with rfl | rfl
      · rfl
      · rfl
    · rw [if_neg hty, if_neg (by rwa [Ty.isDouble_iff])]
  | _ => rfl

/-- The values that an instruction reads, each with the type it is read at. -/
def Instruction.uses : Instruction → List (Ty × Value)
  | call _ _ _ args => args.map fun arg => (arg.ty, arg.value)
  | binary _ _ width lhs rhs | compare _ _ width lhs rhs => [(.int width, lhs), (.int width, rhs)]
  | convert _ _ source value _ => [(.int source, value)]
  | select _ condition ty onTrue onFalse => [(.bool, condition), (ty, onTrue), (ty, onFalse)]
  | branch _ => []
  | branchIf condition _ _ => [(.bool, condition)]
  | ret operand => operand.toList.map fun arg => (arg.ty, arg.value)

/-- A call binds a register if it gives a value. -/
def Instruction.BindsValue : Instruction → Prop
  | call result ty _ _ => result.isSome ↔ ty ≠ .void
  | _ => True

instance : (instruction : Instruction) → Decidable instruction.BindsValue
  | .call result ty _ _ => inferInstanceAs (Decidable (result.isSome ↔ ty ≠ .void))
  | .binary .. | .compare .. | .convert .. | .select .. | .branch _ | .branchIf .. | .ret _ =>
    isTrue trivial

/-- A returned operand is of a type whose text cannot be taken for a return without operand. -/
def Instruction.ReturnsValue : Instruction → Prop
  | ret (some operand) => operand.ty.startsVoid = false
  | _ => True

instance : (instruction : Instruction) → Decidable instruction.ReturnsValue
  | .ret (some operand) => inferInstanceAs (Decidable (operand.ty.startsVoid = false))
  | .ret none | .call .. | .binary .. | .compare .. | .convert .. | .select .. | .branch _
  | .branchIf .. => isTrue trivial

/-- A word that the scanner takes for a word without a meaning of its own. -/
def IsWord (word : String) : Prop :=
  (∃ c rest, word.toList = c :: rest ∧ (Text.isLetter c ∨ c = '_')) ∧
    (∀ c ∈ word.toList, Cut.isWordChar c) ∧
      (scan word.toList).map token? = [some (.word word)]

/-- What the text of a module cannot tell. -/
structure Module.Faithful (module : Module) : Prop where
  globals : (module.globals.map GlobalString.name).Nodup
  bytes : ∀ global ∈ module.globals, global.bytes.length < 2 ^ 63
  types : ∀ function ∈ module.functions, ∀ ty ∈ function.types, ty.Sized
  params : ∀ function ∈ module.definitions, ∀ param ∈ function.params, param.name.isSome
  terminators : ∀ function ∈ module.functions, ∀ block ∈ function.blocks,
    ∀ instruction ∈ block.instructions.dropLast, instruction.isTerminator = false
  calls : ∀ function ∈ module.functions, ∀ instruction ∈ function.instructions,
    instruction.BindsValue
  constants : ∀ function ∈ module.functions, ∀ instruction ∈ function.instructions,
    ∀ use ∈ instruction.uses, use.2.Exact use.1
  returns : ∀ function ∈ module.functions, ∀ instruction ∈ function.instructions,
    instruction.ReturnsValue
  keywords : ∀ function ∈ module.functions, ∀ word,
    .keyword word ∈ function.attributes → IsWord word
  groups : module.attributeGroups.length ≤ 2 ^ 32

/-- An instruction can be written if what it reads can be. -/
theorem Instruction.writable_of_uses {instruction : Instruction}
    (htypes : ∀ ty ∈ instruction.types, ty.Sized) (hbinds : instruction.BindsValue)
    (huses : ∀ use ∈ instruction.uses, use.1.Sized → use.2.Writable use.1)
    (hreturns : instruction.ReturnsValue) : instruction.Writable := by
  cases instruction with
  | call result ret callee args =>
    refine ⟨?_, ?_, ?_⟩
    · have hresult : result.isSome ↔ ret ≠ .void := hbinds
      rw [Bool.eq_iff_iff, hresult, Bool.not_eq_true', ne_eq, ← Ty.isVoid_iff, Bool.not_eq_true]
    · exact htypes ret (by simp [types])
    · intro arg harg
      have hty : arg.ty.Sized := htypes arg.ty (by
        simp only [types, operands, List.mem_append, List.mem_filterMap]
        exact Or.inr ⟨_, List.mem_map_of_mem harg, rfl⟩)
      exact ⟨hty, huses (arg.ty, arg.value) (List.mem_map_of_mem harg) hty⟩
  | binary result op width lhs rhs =>
    exact ⟨huses (.int width, lhs) (by simp [uses]) trivial,
      huses (.int width, rhs) (by simp [uses]) trivial⟩
  | compare result predicate width lhs rhs =>
    exact ⟨huses (.int width, lhs) (by simp [uses]) trivial,
      huses (.int width, rhs) (by simp [uses]) trivial⟩
  | convert result conversion source value target =>
    exact huses (.int source, value) (by simp [uses]) trivial
  | select result condition ty onTrue onFalse =>
    have hty : ty.Sized := htypes ty (by simp [types])
    exact ⟨huses (.bool, condition) (by simp [uses]) trivial,
      ⟨hty, huses (ty, onTrue) (by simp [uses]) hty⟩,
      ⟨hty, huses (ty, onFalse) (by simp [uses]) hty⟩⟩
  | branch target => trivial
  | branchIf condition onTrue onFalse =>
    exact huses (.bool, condition) (by simp [uses]) trivial
  | ret operand =>
    rintro arg harg
    cases Option.mem_def.mp harg
    have hty : arg.ty.Sized := htypes arg.ty (by simp [types, operands])
    exact ⟨⟨hty, huses (arg.ty, arg.value) (by simp [uses]) hty⟩, hreturns⟩

theorem Instruction.writable_of_exact {instruction : Instruction}
    (htypes : ∀ ty ∈ instruction.types, ty.Sized)
    (hbinds : instruction.BindsValue) (huses : ∀ use ∈ instruction.uses, use.2.Exact use.1)
    (hreturns : instruction.ReturnsValue) : instruction.Writable :=
  writable_of_uses htypes hbinds (fun use huse => (huses use huse).writable) hreturns

theorem Instruction.canonical_eq {instruction : Instruction}
    (huses : ∀ use ∈ instruction.uses, use.2.Exact use.1) :
    instruction.canonical = instruction := by
  have heq : ∀ ty value, (ty, value) ∈ instruction.uses → value.canonical ty = value :=
    fun ty value huse => (huses (ty, value) huse).canonical_eq
  cases instruction with
  | call result ret callee args =>
    have hargs : args.map Operand.canonical = args := by
      refine (List.map_congr_left ?_).trans (List.map_id args)
      intro arg harg
      rw [Operand.canonical, heq arg.ty arg.value (List.mem_map_of_mem harg)]
      rfl
    rw [canonical, hargs]
  | binary result op width lhs rhs =>
    rw [canonical, heq _ lhs (by simp [uses]), heq _ rhs (by simp [uses])]
  | compare result predicate width lhs rhs =>
    rw [canonical, heq _ lhs (by simp [uses]), heq _ rhs (by simp [uses])]
  | convert result conversion source value target =>
    rw [canonical, heq _ value (by simp [uses])]
  | select result condition ty onTrue onFalse =>
    rw [canonical, heq _ condition (by simp [uses]), heq _ onTrue (by simp [uses]),
      heq _ onFalse (by simp [uses])]
  | branch target => rfl
  | branchIf condition onTrue onFalse =>
    rw [canonical, heq _ condition (by simp [uses])]
  | ret operand =>
    cases operand with
    | none => rfl
    | some arg =>
      rw [canonical, Option.map_some, Operand.canonical, heq arg.ty arg.value (by simp [uses])]

/-- Scanning a text that starts with a name character cuts a piece off. -/
theorem scanFrom_name (start : Nat) {c : Char} (h : Text.isNameChar c) (rest : List Char) :
    ∃ count found?, scanFrom start (c :: rest) =
      ofCut found? (c :: rest.take count) start ::
        scanFrom (start + Text.byteCount (c :: rest.take count)) (rest.drop count) := by
  refine ⟨(Cut.first c rest).length - 1, (Cut.first c rest).token?, ?_⟩
  rw [scanFrom, if_neg (by rw [not_space_of_name h]; exact Bool.false_ne_true),
    if_neg (not_comment_of_name h)]
  obtain ⟨length, found?⟩ := Cut.first c rest
  cases found? <;> rfl

/-- Name characters that are one token are that token from the first to the last of them. -/
theorem scanFrom_single {text : List Char} {token : Token} {start : Nat}
    (hname : ∀ c ∈ text, Text.isNameChar c)
    (h : (scanFrom start text).map token? = [some token]) :
    scanFrom start text = [.token token ⟨start, start + Text.byteCount text⟩] := by
  cases text with
  | nil =>
    rw [scanFrom] at h
    exact absurd h (List.cons_ne_nil _ _).symm
  | cons c rest =>
    obtain ⟨count, found?, hscan⟩ := scanFrom_name start (hname c List.mem_cons_self) rest
    rw [hscan, List.map_cons, List.cons.injEq, token?_ofCut, List.map_eq_nil_iff] at h
    obtain ⟨rfl, hrest⟩ := h
    have hnil : rest.drop count = [] := by
      cases hdrop : rest.drop count with
      | nil => rfl
      | cons d others =>
        have hd : d ∈ rest := List.mem_of_mem_drop (hdrop ▸ List.mem_cons_self)
        obtain ⟨_, _, hmore⟩ := scanFrom_name
          (start + Text.byteCount (c :: rest.take count)) (hname d (List.mem_cons_of_mem c hd))
          others
        rw [hdrop, hmore] at hrest
        exact absurd hrest (List.cons_ne_nil _ _)
    have htake : rest.take count = rest := List.take_of_length_le (List.drop_eq_nil_iff.mp hnil)
    rw [hscan, hrest, htake]
    rfl

/-- A word is a keyword attribute. -/
theorem IsWord.spellsKeyword {word : String} (h : IsWord word) :
    Attribute.SpellsKeyword word.toList [.word word] := by
  obtain ⟨⟨c, rest, heq, hc⟩, hword, hscan⟩ := h
  have hspells := Spells.word heq hc hword
  have hmeans : Cut.wordToken? word.toList = some (.word word) := by
    have htokens := hspells.tokens 0
    rw [← scan, hscan] at htokens
    exact (List.head_eq_of_cons_eq htokens).symm
  rw [hmeans] at hspells
  refine ⟨hspells, .word word, ?_⟩
  intro start placed hplaced
  have hname : ∀ c ∈ word.toList, Text.isNameChar c :=
    fun c hmem => isNameChar_of_isWordChar (hword c hmem)
  rw [scanFrom_single hname (hspells.tokens start)] at hplaced
  obtain ⟨⟨_, span⟩, rfl, hlexeme⟩ := List.map_eq_singleton_iff.mp hplaced.symm
  cases hlexeme
  exact ⟨rfl, rfl⟩

namespace Module

variable {module : Module}

theorem mem_instructions {function : Function} {block : Block} {instruction : Instruction}
    (hblock : block ∈ function.blocks) (h : instruction ∈ block.instructions) :
    instruction ∈ function.instructions :=
  List.mem_flatMap.mpr ⟨block, hblock, h⟩

theorem Faithful.writable_instruction (h : module.Faithful) {function : Function}
    (hfunction : function ∈ module.functions) {instruction : Instruction}
    (hmem : instruction ∈ function.instructions) : instruction.Writable := by
  apply Instruction.writable_of_exact
  · intro ty hty
    refine h.types function hfunction ty ?_
    rw [Function.types, List.mem_append]
    exact Or.inr (List.mem_flatMap.mpr ⟨instruction, hmem, hty⟩)
  · exact h.calls function hfunction instruction hmem
  · exact h.constants function hfunction instruction hmem
  · exact h.returns function hfunction instruction hmem

theorem Faithful.writable_function (h : module.Faithful) {function : Function}
    (hfunction : function ∈ module.functions) : function.Writable := by
  refine ⟨?_, ?_, ?_⟩
  · exact h.types function hfunction function.ret List.mem_cons_self
  · intro param hparam
    refine ⟨h.types function hfunction param.ty ?_, ?_⟩
    · rw [Function.types, List.mem_append]
      exact Or.inl (List.mem_cons_of_mem _ (List.mem_map_of_mem hparam))
    · intro hdefinition
      exact h.params function (List.mem_filter.mpr ⟨hfunction, hdefinition⟩) param hparam
  · intro block hblock
    refine ⟨?_, h.terminators function hfunction block hblock⟩
    intro instruction hmem
    exact h.writable_instruction hfunction (mem_instructions hblock hmem)

theorem Faithful.writable (h : module.Faithful) : module.Writable where
  distinct := h.globals
  sized := h.bytes
  functions := fun _ hfunction => h.writable_function hfunction
  attributes := by
    intro function hfunction attr hattr
    cases attr with
    | keyword word => exact ⟨_, (h.keywords function hfunction word hattr).spellsKeyword⟩
    | _ => trivial

theorem Faithful.canonical_function (h : module.Faithful) {function : Function}
    (hfunction : function ∈ module.functions) : function.canonical = function := by
  have hblocks : function.blocks.map Block.canonical = function.blocks := by
    refine (List.map_congr_left ?_).trans (List.map_id _)
    intro block hblock
    have hinstructions : block.instructions.map Instruction.canonical = block.instructions := by
      refine (List.map_congr_left ?_).trans (List.map_id _)
      intro instruction hmem
      exact Instruction.canonical_eq
        (h.constants function hfunction instruction (mem_instructions hblock hmem))
    rw [Block.canonical, hinstructions]
    rfl
  rw [Function.canonical, hblocks]

theorem Faithful.canonical_eq (h : module.Faithful) :
    module.canonical = { module with functions := module.declarations ++ module.definitions } := by
  have hfunctions : (module.declarations ++ module.definitions).map Function.canonical =
      module.declarations ++ module.definitions := by
    refine (List.map_congr_left ?_).trans (List.map_id _)
    intro function hfunction
    exact h.canonical_function (mem_functions hfunction)
  rw [canonical, hfunctions]

/-- The text of a module spells the module, with declarations before definitions. -/
theorem parse_text_of_faithful (h : module.Faithful) :
    parse module.text =
      .ok { module with functions := module.declarations ++ module.definitions } := by
  rw [parse_text h.writable h.groups, h.canonical_eq]

/-- A definition before a declaration, with constants of several types. -/
def definitionFirst : Module where
  name := "order"
  source := none
  opaqueTypes := ["Qubit"]
  globals := []
  functions := [
    { name := "main", ret := .void, params := [], attributes := [.flag "entry_point",
        .keyword "nounwind"],
      blocks := [⟨"entry block", [
        .call none .void "__quantum__qis__rx__body" [.double ⟨0⟩, .qubit 1],
        .branchIf (.int 1) "0" "0"]⟩, ⟨"0", [.ret none]⟩] },
    Function.declaration "__quantum__qis__rx__body" [.double, .qubit] .void]

theorem parse_definitionFirst : definitionFirst.Faithful ∧ parse definitionFirst.text =
    .ok { definitionFirst with
      functions := definitionFirst.declarations ++ definitionFirst.definitions } := by
  have hword : IsWord "nounwind" :=
    ⟨⟨'n', _, rfl, Or.inl rfl⟩, List.all_eq_true.mp rfl,
      (Spells.plainWord rfl (Or.inl rfl) rfl rfl).tokens 0⟩
  have hkeywords : ∀ function ∈ definitionFirst.functions, ∀ word,
      .keyword word ∈ function.attributes → IsWord word := by
    simp [definitionFirst, Function.declaration, hword]
  have hfaithful : definitionFirst.Faithful :=
    ⟨by decide, by decide, by decide, by decide, by decide, by decide, by decide, by decide,
      hkeywords, by decide⟩
  exact ⟨hfaithful, parse_text_of_faithful hfaithful⟩

end Module

end QuantumIR
