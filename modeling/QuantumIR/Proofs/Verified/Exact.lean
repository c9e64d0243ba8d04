import QuantumIR.Proofs.Verified.Rules

/-!
What verification decides. Each rule is stated of a module as a whole, without the order in which
modules are checked. A module is accepted exactly if it keeps all rules, and a violation that is
reported is there: what it names breaks its rule.
-/

namespace QuantumIR

open Verification

namespace Function

/-- Whether a function carries a key of entry points. -/
def Marked (function : Function) : Prop :=
  ∃ attr ∈ function.attributes, attr.key ∈ entryPointKeys

/-- The first of several keys that a function has, by the first attribute of that key. -/
def Presents (function : Function) (keys : List String) (attr : Attribute) : Prop :=
  (∃ before after, keys = before ++ attr.key :: after ∧
    ∀ key ∈ before, ∀ other ∈ function.attributes, other.key ≠ key) ∧
  ∃ before after, function.attributes = before ++ attr :: after ∧
    ∀ other ∈ before, other.key ≠ attr.key

/-- The keys under which the number of qubits or of results is given. -/
def countKeys : Register → List String
  | .qubit => qubitCountKeys
  | .result => resultCountKeys

/-- A function declares a count if the first of the keys that it has gives a value which reads as
one. -/
def Declares (function : Function) (register : Register) (count : Nat) : Prop :=
  ∃ key value, function.Presents (countKeys register) (.keyValue key value) ∧
    Text.count? value.toList = some count

end Function

/-- A block ends with its only terminator. -/
def Block.EndsOnce (block : Block) : Prop :=
  ∃ body last, block.instructions = body ++ [last] ∧ last.isTerminator ∧
    ∀ instruction ∈ body, instruction.isTerminator = false

/-- What a rule asks of a module. -/
def Module.Keeps (module : Module) : Rule → Prop
  | .uniqueFunctions => (module.functions.map Function.name).Nodup
  | .entryPoint => ∃ before entry after, module.functions = before ++ entry :: after ∧
      entry.Marked ∧ (∀ other ∈ before ++ after, ¬other.Marked) ∧ entry.blocks ≠ []
  | .requiredAttributes => ∀ entry ∈ module.functions, entry.Marked → ∀ register,
      ∃ count, entry.Declares register count
  | .integerWidth => ∀ function ∈ module.functions, ∀ ty ∈ function.types, ty.Supported
  | .uniqueLabels => ∀ function ∈ module.definitions, (function.blocks.map Block.label).Nodup
  | .terminator => ∀ function ∈ module.definitions, ∀ block ∈ function.blocks, block.EndsOnce
  | .branchTarget => ∀ function ∈ module.definitions, ∀ block ∈ function.blocks,
      ∀ instruction ∈ block.instructions, ∀ target ∈ instruction.successors,
        target ∈ function.blocks.map Block.label
  | .singleAssignment => ∀ function ∈ module.definitions, function.boundNames.Nodup
  | .callTarget => ∀ function ∈ module.definitions, ∀ result ret callee args,
      .call result ret callee args ∈ function.instructions →
        ∃ target ∈ module.functions, target.name = callee ∧ target.params.length = args.length
  | .operandRange => ∀ entry ∈ module.functions, entry.Marked → ∀ register count,
      entry.Declares register count → ∀ result ret callee args,
        .call result ret callee args ∈ entry.instructions →
          ∀ (place : Nat) (arg : Operand), args[place]? = some arg →
            register? (arg.countedTy callee place) = some register →
              ∀ index, arg.value.index? = some index → index < count

/-- Where a violation occurs: the functions, blocks and names that it names break its rule. -/
def Violation.Occurs (module : Module) : Violation → Prop
  | .repeatedFunction name => (module.functions.map Function.name).Duplicate name
  | .noEntryPoint => ∀ function ∈ module.functions, ¬function.Marked
  | .severalEntryPoints names => 2 ≤ names.length ∧ ∃ marked : List Function,
      marked.Sublist module.functions ∧
        (∀ function ∈ module.functions, function ∈ marked ↔ function.Marked) ∧
        names = marked.map Function.name
  | .entryPointWithoutBody name => ∃ entry ∈ module.functions, entry.name = name ∧
      entry.Marked ∧ entry.blocks = []
  | .missingCount name key => ∃ entry ∈ module.functions, entry.name = name ∧ entry.Marked ∧
      ∃ register, (Function.countKeys register).head? = some key ∧
        ∀ key ∈ Function.countKeys register, ∀ attr ∈ entry.attributes, attr.key ≠ key
  | .invalidCount name key value => ∃ entry ∈ module.functions, entry.name = name ∧ entry.Marked ∧
      ∃ register attr, entry.Presents (Function.countKeys register) attr ∧ attr.key = key ∧
        attr.value?.getD "" = value ∧ Text.count? value.toList = none
  | .width name bits => ∃ function ∈ module.functions, function.name = name ∧
      .int bits ∈ function.types ∧ ¬(1 ≤ bits ∧ bits ≤ 64)
  | .repeatedLabel name label => ∃ function ∈ module.definitions, function.name = name ∧
      (function.blocks.map Block.label).Duplicate label
  | .missingTerminator name label => ∃ function ∈ module.definitions, function.name = name ∧
      ∃ block ∈ function.blocks, block.label = label ∧
        ∀ body last, block.instructions = body ++ [last] → last.isTerminator = false
  | .misplacedTerminator name label => ∃ function ∈ module.definitions, function.name = name ∧
      ∃ block ∈ function.blocks, block.label = label ∧
        ∃ body last, block.instructions = body ++ [last] ∧
          ∃ instruction ∈ body, instruction.isTerminator
  | .unknownTarget name label target => ∃ function ∈ module.definitions, function.name = name ∧
      ∃ block ∈ function.blocks, block.label = label ∧
        (∃ instruction ∈ block.instructions, target ∈ instruction.successors) ∧
        target ∉ function.blocks.map Block.label
  | .repeatedAssignment name assigned => ∃ function ∈ module.definitions, function.name = name ∧
      function.boundNames.Duplicate assigned
  | .unknownCallee name callee => ∃ function ∈ module.definitions, function.name = name ∧
      (∃ instruction ∈ function.instructions, instruction.callee? = some callee) ∧
        ∀ target ∈ module.functions, target.name ≠ callee
  | .argumentCount name callee expected found => ∃ function ∈ module.definitions,
      function.name = name ∧ expected ≠ found ∧
        (∃ result ret args, .call result ret callee args ∈ function.instructions ∧
          args.length = found) ∧
        (∃ target ∈ module.functions, target.name = callee) ∧
        ∀ target ∈ module.functions, target.name = callee → target.params.length = expected
  | .indexOutOfRange name register index limit => ∃ entry ∈ module.functions, entry.name = name ∧
      entry.Marked ∧ entry.Declares register limit ∧ limit ≤ index ∧
        ∃ result ret callee args, .call result ret callee args ∈ entry.instructions ∧
          ∃ (place : Nat) (arg : Operand), args[place]? = some arg ∧ arg.value.index? = some index ∧
            register? (arg.countedTy callee place) = some register

namespace Function

variable {function : Function}

theorem attribute?_eq_some_iff {key : String} {attr : Attribute} :
    function.attribute? key = some attr ↔ attr.key = key ∧
      ∃ before after, function.attributes = before ++ attr :: after ∧
        ∀ other ∈ before, other.key ≠ key := by
  simp [attribute?, List.find?_eq_some_iff_append]

theorem attribute?_eq_none_iff {key : String} :
    function.attribute? key = none ↔ ∀ attr ∈ function.attributes, attr.key ≠ key := by
  simp [attribute?]

theorem marked_iff : function.Marked ↔ function.isEntryPoint = true := by
  simp only [Marked, isEntryPoint, attribute?, List.any_eq_true, List.find?_isSome,
    decide_eq_true_eq]
  constructor
  · rintro ⟨attr, hattr, hkey⟩
    exact ⟨attr.key, hkey, attr, hattr, rfl⟩
  · rintro ⟨_, hkey, attr, hattr, rfl⟩
    exact ⟨attr, hattr, hkey⟩

/-- The attribute that is looked up is that of the first key which the function has. -/
theorem firstAttribute?_eq_some_iff {keys : List String} {attr : Attribute} :
    function.firstAttribute? keys = some attr ↔ function.Presents keys attr := by
  rw [firstAttribute?, List.findSome?_eq_some_iff]
  simp only [attribute?_eq_some_iff, attribute?_eq_none_iff]
  constructor
  · rintro ⟨before, key, after, hkeys, ⟨rfl, hattributes⟩, hbefore⟩
    exact ⟨⟨before, after, hkeys, hbefore⟩, hattributes⟩
  · rintro ⟨⟨before, after, hkeys, hbefore⟩, hattributes⟩
    exact ⟨before, attr.key, after, hkeys, ⟨rfl, hattributes⟩, hbefore⟩

theorem declares_iff {register : Register} {count : Nat} :
    function.Declares register count ↔ function.count? (countKeys register) = some count := by
  simp only [Declares, ← firstAttribute?_eq_some_iff, count?, Option.bind_eq_bind,
    Option.bind_eq_some_iff]
  constructor
  · rintro ⟨key, value, hattr, hcount⟩
    exact ⟨_, hattr, value, rfl, hcount⟩
  · rintro ⟨attr, hattr, value, hvalue, hcount⟩
    cases attr with
    | keyValue key found =>
      cases hvalue
      exact ⟨key, value, hattr, hcount⟩
    | _ => cases hvalue

end Function

namespace Module

variable {module : Module} {entry : Function}

theorem mem_entryPoints {function : Function} :
    function ∈ module.entryPoints ↔ function ∈ module.functions ∧ function.Marked := by
  rw [entryPoints, List.mem_filter, Function.marked_iff]

theorem entryPoints_eq_singleton_iff : module.entryPoints = [entry] ↔ ∃ before after,
    module.functions = before ++ entry :: after ∧ entry.Marked ∧
      ∀ other ∈ before ++ after, ¬other.Marked := by
  rw [entryPoints, List.filter_eq_cons_iff]
  simp only [List.filter_eq_nil_iff, ← Function.marked_iff, List.forall_mem_append]
  constructor
  · rintro ⟨before, after, hfunctions, hbefore, hentry, hafter⟩
    exact ⟨before, after, hfunctions, hentry, hbefore, hafter⟩
  · rintro ⟨before, after, hfunctions, hentry, hbefore, hafter⟩
    exact ⟨before, after, hfunctions, hbefore, hentry, hafter⟩

theorem keeps_entryPoint_iff :
    module.Keeps .entryPoint ↔ ∃ entry, module.entryPoints = [entry] ∧ entry.blocks ≠ [] := by
  simp only [entryPoints_eq_singleton_iff]
  constructor
  · rintro ⟨before, entry, after, hfunctions, hentry, hothers, hbody⟩
    exact ⟨entry, ⟨before, after, hfunctions, hentry, hothers⟩, hbody⟩
  · rintro ⟨entry, ⟨before, after, hfunctions, hentry, hothers⟩, hbody⟩
    exact ⟨before, entry, after, hfunctions, hentry, hothers, hbody⟩

end Module

namespace Violation

variable {module : Module}

/-- What occurs breaks the rule under which it is reported. -/
theorem Occurs.not_keeps {violation : Violation} (h : violation.Occurs module) :
    ¬module.Keeps violation.rule := by
  intro hkeeps
  cases violation with
  | repeatedFunction name =>
    have hnames : (module.functions.map Function.name).Nodup := hkeeps
    exact List.nodup_iff_forall_not_duplicate.mp hnames name h
  | noEntryPoint =>
    obtain ⟨entry, hentry, -⟩ := Module.keeps_entryPoint_iff.mp hkeeps
    obtain ⟨hmem, hmarked⟩ := Module.mem_entryPoints.mp (hentry ▸ List.mem_singleton_self entry)
    exact h entry hmem hmarked
  | severalEntryPoints names =>
    obtain ⟨entry, hentry, -⟩ := Module.keeps_entryPoint_iff.mp hkeeps
    obtain ⟨hlength, marked, hsublist, hmarked, rfl⟩ := h
    have hfilter : marked.filter Function.isEntryPoint = marked :=
      List.filter_eq_self.mpr fun function hfunction =>
        Function.marked_iff.mp
          ((hmarked function (hsublist.subset hfunction)).mp hfunction)
    have hle := (hsublist.filter Function.isEntryPoint).length_le
    rw [hfilter, ← Module.entryPoints, hentry, List.length_singleton] at hle
    rw [List.length_map] at hlength
    omega
  | entryPointWithoutBody name =>
    obtain ⟨entry, hentry, hbody⟩ := Module.keeps_entryPoint_iff.mp hkeeps
    obtain ⟨function, hmem, -, hmarked, hnil⟩ := h
    have hfunction := Module.mem_entryPoints.mpr ⟨hmem, hmarked⟩
    rw [hentry, List.mem_singleton] at hfunction
    exact hbody (hfunction ▸ hnil)
  | missingCount name key =>
    obtain ⟨entry, hmem, -, hentry, register, -, hmissing⟩ := h
    obtain ⟨count, key, value, ⟨⟨before, after, hkeys, -⟩, ⟨earlier, later, hattributes, -⟩⟩, -⟩ :=
      hkeeps entry hmem hentry register
    refine hmissing key ?_ (.keyValue key value) ?_ rfl
    · rw [hkeys]
      exact List.mem_append_right _ List.mem_cons_self
    · rw [hattributes]
      exact List.mem_append_right _ List.mem_cons_self
  | invalidCount name key value =>
    obtain ⟨entry, hmem, -, hentry, register, attr, hattr, -, rfl, hinvalid⟩ := h
    obtain ⟨count, key, value, hkeyValue, hcount⟩ := hkeeps entry hmem hentry register
    rw [← Function.firstAttribute?_eq_some_iff] at hattr hkeyValue
    cases hattr.symm.trans hkeyValue
    cases hcount.symm.trans hinvalid
  | width name bits =>
    obtain ⟨function, hmem, -, hty, hwidth⟩ := h
    exact hwidth (hkeeps function hmem _ hty bits rfl)
  | repeatedLabel name label =>
    obtain ⟨function, hmem, -, hlabel⟩ := h
    exact List.nodup_iff_forall_not_duplicate.mp (hkeeps function hmem) label hlabel
  | missingTerminator name label =>
    obtain ⟨function, hmem, -, block, hblock, -, hlast⟩ := h
    obtain ⟨body, last, hinstructions, hterminator, -⟩ := hkeeps function hmem block hblock
    rw [hlast body last hinstructions] at hterminator
    cases hterminator
  | misplacedTerminator name label =>
    obtain ⟨function, hmem, -, block, hblock, -, body, last, hinstructions, instruction, hbody,
      hinstruction⟩ := h
    obtain ⟨body', last', hinstructions', -, hfree⟩ := hkeeps function hmem block hblock
    obtain ⟨rfl, -⟩ := List.append_inj' (hinstructions.symm.trans hinstructions') rfl
    rw [hfree instruction hbody] at hinstruction
    cases hinstruction
  | unknownTarget name label target =>
    obtain ⟨function, hmem, -, block, hblock, -, ⟨instruction, hinstruction, htarget⟩,
      hunknown⟩ := h
    exact hunknown (hkeeps function hmem block hblock instruction hinstruction target htarget)
  | repeatedAssignment name assigned =>
    obtain ⟨function, hmem, -, hassigned⟩ := h
    exact List.nodup_iff_forall_not_duplicate.mp (hkeeps function hmem) assigned hassigned
  | unknownCallee name callee =>
    obtain ⟨function, hmem, -, ⟨instruction, hinstruction, hcallee⟩, hunknown⟩ := h
    cases instruction with
    | call result ret callee' args =>
      cases hcallee
      obtain ⟨target, htarget, hname, -⟩ := hkeeps function hmem result ret callee args hinstruction
      exact hunknown target htarget hname
    | _ => cases hcallee
  | argumentCount name callee expected found =>
    obtain ⟨function, hmem, -, hne, ⟨result, ret, args, hinstruction, hlength⟩, -, hparams⟩ := h
    obtain ⟨target, htarget, hname, hcount⟩ :=
      hkeeps function hmem result ret callee args hinstruction
    exact hne ((hparams target htarget hname).symm.trans (hcount.trans hlength))
  | indexOutOfRange name register index limit =>
    obtain ⟨entry, hmem, -, hentry, hdeclares, hle, result, ret, callee, args, hinstruction, place,
      arg, harg, hindex, hregister⟩ := h
    have hlt := hkeeps entry hmem hentry register limit hdeclares result ret callee args
      hinstruction place arg harg hregister index hindex
    omega

end Violation

namespace Verification

variable {module : Module} {function entry : Function} {violation : Violation}

theorem report_eq_error {found : Option Violation} :
    report found = .error violation ↔ found = some violation := by
  cases found with
  | none => simp [report]
  | some found => simp [report]

/-- What is found to occur again occurs twice. -/
theorem duplicate_of_firstRepeat? {seen items : List String} {name : String}
    (h : firstRepeat? seen items = some name) :
    name ∈ items ∧ (name ∈ seen ∨ items.Duplicate name) := by
  induction items generalizing seen with
  | nil => cases h
  | cons item rest ih =>
    rw [firstRepeat?] at h
    split at h
    · next hseen =>
      cases h
      exact ⟨List.mem_cons_self, Or.inl hseen⟩
    · obtain ⟨hmem, hname⟩ := ih h
      refine ⟨List.mem_cons_of_mem item hmem, ?_⟩
      rcases hname with hseen | hduplicate
      · rcases List.mem_cons.mp hseen with rfl | hseen
        · exact Or.inr (List.Mem.duplicate_cons_self hmem)
        · exact Or.inl hseen
      · exact Or.inr (hduplicate.duplicate_cons item)

/-- A repetition that is reported is one. -/
theorem duplicate_of_report {items : List String} {make : String → Violation}
    (h : report ((firstRepeat? [] items).map make) = .error violation) :
    ∃ name, items.Duplicate name ∧ violation = make name := by
  obtain ⟨name, hname, rfl⟩ := Option.map_eq_some_iff.mp (report_eq_error.mp h)
  obtain ⟨-, hseen | hduplicate⟩ := duplicate_of_firstRepeat? hname
  · cases hseen
  · exact ⟨name, hduplicate, rfl⟩

theorem occurs_of_checkUniqueFunctions (h : checkUniqueFunctions module = .error violation) :
    violation.Occurs module := by
  obtain ⟨name, hname, rfl⟩ := duplicate_of_report h
  exact hname

theorem occurs_of_checkEntryPoint (h : checkEntryPoint module = .error violation) :
    violation.Occurs module := by
  rw [checkEntryPoint] at h
  split at h
  · next hnone =>
    cases h
    intro function hmem hmarked
    have hfunction := Module.mem_entryPoints.mpr ⟨hmem, hmarked⟩
    rw [hnone] at hfunction
    cases hfunction
  · next entry hentry =>
    split at h
    · next hbody =>
      cases h
      obtain ⟨hmem, hmarked⟩ := Module.mem_entryPoints.mp (hentry ▸ List.mem_singleton_self entry)
      exact ⟨entry, hmem, rfl, hmarked, List.isEmpty_iff.mp hbody⟩
    · cases h
  · next hnone hone =>
    cases h
    refine ⟨?_, module.entryPoints, List.filter_sublist, ?_, rfl⟩
    · rw [List.length_map]
      rcases hpoints : module.entryPoints with _ | ⟨first, _ | ⟨second, others⟩⟩
      · exact absurd hpoints hnone
      · exact absurd hpoints (hone first)
      · simp
    · exact fun function hmem => Module.mem_entryPoints.trans (and_iff_right hmem)

theorem occurs_of_checkCount (hmem : entry ∈ module.functions) (hmarked : entry.Marked)
    (register : Register)
    (h : checkCount entry (Function.countKeys register) = .error violation) :
    violation.Occurs module := by
  rw [checkCount] at h
  split at h
  · next hmissing =>
    cases h
    refine ⟨entry, hmem, rfl, hmarked, register, by cases register <;> rfl, ?_⟩
    intro key hkey
    rw [Function.firstAttribute?, List.findSome?_eq_none_iff] at hmissing
    exact Function.attribute?_eq_none_iff.mp (hmissing key hkey)
  · next attr hattr =>
    dsimp only at h
    split at h
    · cases h
    · next hcount =>
      cases h
      exact ⟨entry, hmem, rfl, hmarked, register, attr,
        Function.firstAttribute?_eq_some_iff.mp hattr, rfl, rfl, hcount⟩

theorem occurs_of_checkWidths (hmem : function ∈ module.functions)
    (h : checkWidths function = .error violation) : violation.Occurs module := by
  obtain ⟨bits, hbits, rfl⟩ := Option.map_eq_some_iff.mp (report_eq_error.mp h)
  obtain ⟨before, ty, after, htypes, hty, -⟩ := List.findSome?_eq_some_iff.mp hbits
  cases ty with
  | int width =>
    obtain ⟨hwidth, hbad⟩ := Option.filter_eq_some_iff.mp hty
    cases hwidth
    refine ⟨function, hmem, rfl, ?_, ?_⟩
    · rw [htypes]
      exact List.mem_append_right _ List.mem_cons_self
    · intro hsupported
      have hnone : unsupportedWidth? (.int bits) = none :=
        unsupportedWidth?_eq_none.mpr fun width heq => by cases heq; exact hsupported
      cases hty.symm.trans hnone
  | _ => cases hty

theorem occurs_of_checkBlock (hmem : function ∈ module.definitions) {block : Block}
    (hblock : block ∈ function.blocks) (h : checkBlock function block = .error violation) :
    violation.Occurs module := by
  rw [checkBlock] at h
  split at h
  · next hnone =>
    cases h
    refine ⟨function, hmem, rfl, block, hblock, rfl, ?_⟩
    intro body last hinstructions
    rw [Block.terminator?, hinstructions, List.getLast?_concat, Option.filter_eq_none_iff] at hnone
    simpa using hnone last rfl
  · next terminator hterminator =>
    obtain ⟨hlast, -⟩ := Option.filter_eq_some_iff.mp hterminator
    have hinstructions := List.dropLast_append_getLast? terminator hlast
    split at h
    · next hbody =>
      cases h
      exact ⟨function, hmem, rfl, block, hblock, rfl, _, terminator, hinstructions.symm,
        List.any_eq_true.mp hbody⟩
    · obtain ⟨target, htarget, rfl⟩ := Option.map_eq_some_iff.mp (report_eq_error.mp h)
      refine ⟨function, hmem, rfl, block, hblock, rfl, ⟨terminator, ?_, ?_⟩, ?_⟩
      · exact List.mem_of_getLast? hlast
      · exact List.mem_of_find?_eq_some htarget
      · have hunknown : (function.block? target).isNone := by simpa using List.find?_some htarget
        exact block?_isNone.mp hunknown

theorem occurs_of_checkCall (hnames : (module.functions.map Function.name).Nodup)
    (hmem : function ∈ module.definitions) {instruction : Instruction}
    (hinstruction : instruction ∈ function.instructions)
    (h : checkCall module function instruction = .error violation) : violation.Occurs module := by
  cases instruction with
  | call result ret callee args =>
    dsimp only [checkCall] at h
    split at h
    · next hnone =>
      cases h
      refine ⟨function, hmem, rfl, ⟨_, hinstruction, rfl⟩, ?_⟩
      intro target htarget hname
      cases hnone.symm.trans ((Module.function?_eq_some_iff hnames).mpr ⟨htarget, hname⟩)
    · next target htarget =>
      split at h
      · cases h
      · next hlength =>
        cases h
        refine ⟨function, hmem, rfl, hlength, ⟨result, ret, args, hinstruction, rfl⟩,
          ⟨target, (Module.function?_eq_some_iff hnames).mp htarget⟩, ?_⟩
        intro other hother hname
        cases htarget.symm.trans ((Module.function?_eq_some_iff hnames).mpr ⟨hother, hname⟩)
        rfl
  | _ => cases h

theorem occurs_of_checkFunction (hnames : (module.functions.map Function.name).Nodup)
    (hmem : function ∈ module.functions) (h : checkFunction module function = .error violation) :
    violation.Occurs module := by
  rcases bind_eq_error h with hwidths | ⟨_, -, h⟩
  · exact occurs_of_checkWidths hmem hwidths
  split at h
  · next hbody =>
    have hdefinition : function ∈ module.definitions := List.mem_filter.mpr ⟨hmem, hbody⟩
    rcases bind_eq_error h with hlabels | ⟨_, -, h⟩
    · obtain ⟨label, hlabel, rfl⟩ := duplicate_of_report hlabels
      exact ⟨function, hdefinition, rfl, hlabel⟩
    rcases bind_eq_error h with hblocks | ⟨_, -, h⟩
    · obtain ⟨block, hblock, hfault⟩ := forM_eq_error hblocks
      exact occurs_of_checkBlock hdefinition hblock hfault
    rcases bind_eq_error h with hassignments | ⟨_, -, hcalls⟩
    · obtain ⟨name, hname, rfl⟩ := duplicate_of_report hassignments
      exact ⟨function, hdefinition, rfl, hname⟩
    · obtain ⟨instruction, hinstruction, hfault⟩ := forM_eq_error hcalls
      exact occurs_of_checkCall hnames hdefinition hinstruction hfault
  · cases h

theorem occurs_of_checkIndices {qubits results : Nat} (hmem : entry ∈ module.functions)
    (hmarked : entry.Marked)
    (hdeclares : ∀ register, entry.Declares register (registerCounts qubits results register))
    {instruction : Instruction} (hinstruction : instruction ∈ entry.instructions)
    (h : checkIndices entry qubits results instruction = .error violation) :
    violation.Occurs module := by
  cases instruction with
  | call result ret callee args =>
    obtain ⟨⟨arg, place⟩, harg, h⟩ := forM_eq_error h
    rw [List.mk_mem_zipIdx_iff_getElem?] at harg
    dsimp only [checkIndex] at h
    split at h
    · next index register hindex hregister =>
      change (if index < registerCounts qubits results register then .ok () else .error
        (.indexOutOfRange entry.name register index (registerCounts qubits results register))) =
          Except.error violation at h
      split at h
      · cases h
      · next hle =>
        cases h
        exact ⟨entry, hmem, rfl, hmarked, hdeclares register, Nat.le_of_not_lt hle, result, ret,
          callee, args, hinstruction, place, arg, harg, hindex, hregister⟩
    · cases h
  | _ => cases h

end Verification

/-- What verification reports occurs. -/
theorem Module.occurs_of_verify {module : Module} {violation : Violation}
    (h : module.verify = .error violation) : violation.Occurs module := by
  rcases bind_eq_error h with hfault | ⟨_, hunique, h⟩
  · exact occurs_of_checkUniqueFunctions hfault
  have hnames := checkUniqueFunctions_eq_ok.mp hunique
  rcases bind_eq_error h with hfault | ⟨entry, hentry, h⟩
  · exact occurs_of_checkEntryPoint hfault
  obtain ⟨hpoints, -⟩ := checkEntryPoint_eq_ok.mp hentry
  obtain ⟨hmem, hmarked⟩ := mem_entryPoints.mp (hpoints ▸ List.mem_singleton_self entry)
  rcases bind_eq_error h with hfault | ⟨qubits, hqubits, h⟩
  · exact occurs_of_checkCount hmem hmarked .qubit hfault
  rcases bind_eq_error h with hfault | ⟨results, hresults, h⟩
  · exact occurs_of_checkCount hmem hmarked .result hfault
  rcases bind_eq_error h with hfault | ⟨_, -, h⟩
  · obtain ⟨function, hfunction, hfault⟩ := forM_eq_error hfault
    exact occurs_of_checkFunction hnames hfunction hfault
  · obtain ⟨instruction, hinstruction, hfault⟩ := forM_eq_error h
    refine occurs_of_checkIndices hmem hmarked ?_ hinstruction hfault
    rintro (_ | _)
    · exact Function.declares_iff.mpr (checkCount_eq_ok.mp hqubits)
    · exact Function.declares_iff.mpr (checkCount_eq_ok.mp hresults)

theorem Module.Verified.keeps {module : Module} {entry : Function} {qubits results : Nat}
    (h : module.Verified entry qubits results) (rule : Rule) : module.Keeps rule := by
  have hmarked : ∀ function ∈ module.functions, function.Marked → function = entry := by
    intro function hmem hmarked
    have hfunction := mem_entryPoints.mpr ⟨hmem, hmarked⟩
    rwa [h.entryPoints, List.mem_singleton] at hfunction
  have hcounts : ∀ register, entry.count? (Function.countKeys register) =
      some (registerCounts qubits results register) := by
    rintro (_ | _)
    · exact h.qubitCount
    · exact h.resultCount
  cases rule with
  | uniqueFunctions => exact h.functions
  | entryPoint =>
    exact keeps_entryPoint_iff.mpr ⟨entry, h.entryPoints, List.isEmpty_eq_false_iff.mp h.body⟩
  | requiredAttributes =>
    intro function hmem hfunction register
    obtain rfl := hmarked function hmem hfunction
    exact ⟨_, Function.declares_iff.mpr (hcounts register)⟩
  | integerWidth => exact h.widths
  | uniqueLabels => exact fun function hmem => (h.definitions function hmem).labels
  | terminator =>
    intro function hmem block hblock
    obtain ⟨body, last, heq, hlast, hbody, -⟩ := (h.definitions function hmem).blocks block hblock
    exact ⟨body, last, heq, hlast, hbody⟩
  | branchTarget =>
    intro function hmem block hblock instruction hinstruction target htarget
    exact ((h.definitions function hmem).blocks block hblock).mem_labels hinstruction htarget
  | singleAssignment => exact fun function hmem => (h.definitions function hmem).assignments
  | callTarget =>
    intro function hmem result ret callee args hcall
    obtain ⟨target, htarget, hlength⟩ := (h.definitions function hmem).calls _ hcall
    obtain ⟨hmem', hname⟩ := (function?_eq_some_iff h.functions).mp htarget
    exact ⟨target, hmem', hname, hlength⟩
  | operandRange =>
    intro function hmem hfunction register count hcount result ret callee args hcall place arg harg
      hregister index hindex
    obtain rfl := hmarked function hmem hfunction
    cases (hcounts register).symm.trans (Function.declares_iff.mp hcount)
    exact h.indices _ hcall place arg harg register hregister index hindex

/-- Verification accepts exactly the modules that keep all rules. A violation that it reports is
there: the functions, blocks and names that it names break the rule under which it is reported. -/
theorem Module.verify_exact (module : Module) :
    (module.verify = .ok () ↔ ∀ rule, module.Keeps rule) ∧
    ∀ violation, module.verify = .error violation →
      violation.Occurs module ∧ ¬module.Keeps violation.rule := by
  have hreported : ∀ violation, module.verify = .error violation →
      violation.Occurs module ∧ ¬module.Keeps violation.rule := by
    intro violation h
    have hoccurs := occurs_of_verify h
    exact ⟨hoccurs, hoccurs.not_keeps⟩
  refine ⟨⟨?_, ?_⟩, hreported⟩
  · intro h
    obtain ⟨entry, qubits, results, hverified⟩ := verify_eq_ok_iff.mp h
    exact hverified.keeps
  · intro hkeeps
    cases h : module.verify with
    | ok _ => rfl
    | error violation => exact absurd (hkeeps violation.rule) (hreported violation h).2

/-- An entry point that branches to a block which is not there. -/
def Module.misdirected : Module where
  name := "misdirected"
  source := none
  opaqueTypes := []
  globals := []
  functions := [
    { name := "main", ret := .void, params := []
      attributes := [.flag "entry_point", .keyValue "required_num_qubits" "0",
        .keyValue "required_num_results" "0"]
      blocks := [⟨"entry", [.branchIf (.int 1) "end" "nowhere"]⟩, ⟨"end", [.ret none]⟩] }]

theorem Module.verify_misdirected :
    misdirected.verify = .error (.unknownTarget "main" "entry" "nowhere") ∧
    (Violation.unknownTarget "main" "entry" "nowhere").Occurs misdirected ∧
    ¬misdirected.Keeps .branchTarget := by
  have hverify : misdirected.verify = .error (.unknownTarget "main" "entry" "nowhere") := by rfl
  exact ⟨hverify, (verify_exact misdirected).2 _ hverify⟩

end QuantumIR
