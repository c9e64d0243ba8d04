import QuantumIR.Proofs.Reading.Entities

/-!
The canonical text of a module is read back as that module, with its declarations before its
definitions and its constants as they are written.
-/

namespace QuantumIR

open Reading Lexeme

namespace Module

theorem readNextEntity_group {source : List Char} {entry : List Attribute × Nat}
    {placed : List PlacedToken} (hgroup : PlacedGroup source entry placed)
    (h : ∀ attr ∈ entry.1, attr.Writable) {draft : Draft}
    (hdistinct : UInt32.ofNat entry.2 ∉ draft.groups.map Prod.fst) (rest : List PlacedToken)
    (n : Nat) :
    ∃ n', readNextEntity source draft ⟨placed ++ rest, n⟩ =
      .ok (.inl { draft with groups := draft.groups ++ [(UInt32.ofNat entry.2, entry.1)] },
        ⟨rest, n'⟩) := by
  have hany : (draft.groups.any fun other => other.1 = UInt32.ofNat entry.2) = false := by
    rw [List.any_eq_false]
    intro other hother heq
    rw [decide_eq_true_eq] at heq
    exact hdistinct (heq ▸ List.mem_map_of_mem hother)
  obtain ⟨n', hread⟩ := readGroup_placed hgroup h rest n
  obtain ⟨opening, attributes, closing, rfl, hopening, -, -⟩ := hgroup
  obtain ⟨⟨_, _⟩, others, rfl, rfl, -⟩ := List.map_eq_cons_iff.mp hopening
  refine ⟨n', ?_⟩
  change Except.bind (Except.bind (readGroup source _) _) _ = _
  rw [hread]
  simp only [Except.bind, hany]
  rfl

/-- The attribute groups are read up to the end of the text. -/
theorem readEntities_groups {source : List Char} {entries : List (List Attribute × Nat)}
    {placed : List PlacedToken} (hgroups : PlacedGroups source entries placed)
    (h : ∀ entry ∈ entries, ∀ attr ∈ entry.1, attr.Writable) (draft : Draft)
    (hdistinct : (draft.groups.map Prod.fst ++
      entries.map fun entry => UInt32.ofNat entry.2).Nodup) (n : Nat) :
    ∃ n', loop .topLevel (readNextEntity source) draft ⟨placed, n⟩ =
      .ok ({ draft with
        groups := draft.groups ++ entries.map fun entry => (UInt32.ofNat entry.2, entry.1) },
        ⟨[], n'⟩) := by
  induction hgroups generalizing draft n with
  | nil =>
    refine ⟨n, ?_⟩
    rw [loop, List.map_nil, List.append_nil]
    rfl
  | @cons entry entries first others hfirst _ ih =>
    have hnew : UInt32.ofNat entry.2 ∉ draft.groups.map Prod.fst := by
      intro hmem
      exact List.disjoint_of_nodup_append hdistinct hmem List.mem_cons_self
    obtain ⟨n₁, hread⟩ :=
      readNextEntity_group hfirst (h entry List.mem_cons_self) hnew others n
    have hrest := fun e he => h e (List.mem_cons_of_mem entry he)
    obtain ⟨n₂, hloop⟩ := ih hrest
      { draft with groups := draft.groups ++ [(UInt32.ofNat entry.2, entry.1)] }
      (by simpa using hdistinct) n₁
    have hshorter : others.length < (first ++ others).length := by
      obtain ⟨opening, attributes, closing, rfl, -⟩ := hfirst
      simp only [List.length_append, List.length_singleton]
      omega
    refine ⟨n₂, ?_⟩
    rw [loop, hread]
    simp only [if_pos hshorter]
    rw [hloop, List.map_cons, List.append_assoc]
    rfl

/-- Groups with their numbers, as they are read. -/
def numbered (groups : List (List Attribute)) : List (UInt32 × List Attribute) :=
  groups.zipIdx.map fun entry => (UInt32.ofNat entry.2, entry.1)

/-- The number of the group of a function, if it has attributes. -/
def groupNumber? (groups : List (List Attribute)) (function : Function) : Option UInt32 :=
  if function.attributes.isEmpty then none
  else some (UInt32.ofNat (groups.idxOf function.attributes))

theorem ofNat_inj {i j : Nat} (hi : i < UInt32.size) (hj : j < UInt32.size)
    (h : UInt32.ofNat i = UInt32.ofNat j) : i = j := by
  have := congrArg UInt32.toNat h
  rwa [UInt32.toNat_ofNat_of_lt' hi, UInt32.toNat_ofNat_of_lt' hj] at this

theorem nodup_numbers {groups : List (List Attribute)} (h : groups.length ≤ UInt32.size) :
    (groups.zipIdx.map fun entry => UInt32.ofNat entry.2).Nodup := by
  have hmap : groups.zipIdx.map (fun entry => UInt32.ofNat entry.2) =
      (List.range groups.length).map UInt32.ofNat := by
    rw [List.range_eq_range', ← List.zipIdx_map_snd 0 groups, List.map_map]
    rfl
  rw [hmap]
  apply List.Nodup.map_on _ List.nodup_range
  intro i hi j hj
  rw [List.mem_range] at hi hj
  exact ofNat_inj (by omega) (by omega)

/-- The attributes of a group are found by its number. -/
theorem lookup_numbered {groups : List (List Attribute)} (h : groups.length ≤ UInt32.size)
    {attributes : List Attribute} (hmem : attributes ∈ groups) :
    (numbered groups).lookup (UInt32.ofNat (groups.idxOf attributes)) = some attributes := by
  have hentry : (UInt32.ofNat (groups.idxOf attributes), attributes) ∈ numbered groups := by
    refine List.mem_map.mpr ⟨(attributes, groups.idxOf attributes), ?_, rfl⟩
    rw [List.mk_mem_zipIdx_iff_getElem?]
    exact List.getElem?_idxOf hmem
  have hkeys : ((numbered groups).map Prod.fst).Nodup := by
    rw [numbered, List.map_map]
    exact nodup_numbers h
  obtain ⟨front, back, heq⟩ := List.append_of_mem hentry
  rw [List.lookup_eq_some_iff]
  refine ⟨front, back, heq, ?_⟩
  intro other hother
  rw [heq, List.map_append, List.nodup_append] at hkeys
  rw [bne_iff_ne]
  intro hnumber
  exact hkeys.2.2 other.1 (List.mem_map_of_mem hother) _ List.mem_cons_self hnumber.symm

theorem mem_attributeGroups {module : Module} {function : Function}
    (h : function ∈ module.declarations ++ module.definitions)
    (hattributes : function.attributes ≠ []) : function.attributes ∈ module.attributeGroups := by
  rw [attributeGroups, List.mem_eraseDups, List.mem_filter]
  refine ⟨List.mem_map_of_mem h, ?_⟩
  cases hempty : function.attributes with
  | nil => exact absurd hempty hattributes
  | cons attr rest => rfl

/-- A function that refers to the group of its attributes has these attributes. -/
theorem resolve_eq {groups : List (List Attribute)} (h : groups.length ≤ UInt32.size)
    {function : Function} (hmem : function.attributes ≠ [] → function.attributes ∈ groups)
    {entry : Function × List (UInt32 × Place)}
    (hfunction : entry.1 = { function.canonical with attributes := [] })
    (hnumber : entry.2.map Prod.fst = (groupNumber? groups function).toList) :
    resolve (numbered groups) entry = .ok function.canonical := by
  have hresolve : ∀ found : List (List Attribute), found.flatten = function.attributes →
      entry.2.mapM (findGroup (numbered groups)) = .ok found →
      resolve (numbered groups) entry = .ok function.canonical := by
    intro found hfound hmapM
    rw [resolve, hmapM]
    change Except.ok { entry.1 with attributes := found.flatten ++ entry.1.attributes } = _
    rw [hfunction, hfound, List.append_nil]
    rfl
  rw [groupNumber?] at hnumber
  by_cases hattributes : function.attributes = []
  · rw [hattributes] at hnumber hresolve
    have hreferences : entry.2 = [] := List.map_eq_nil_iff.mp hnumber
    refine hresolve [] rfl ?_
    rw [hreferences]
    rfl
  · rw [if_neg (by simpa using hattributes)] at hnumber
    obtain ⟨⟨number, place⟩, hreferences, rfl⟩ := List.map_eq_singleton_iff.mp hnumber
    refine hresolve [function.attributes] (List.flatten_singleton) ?_
    rw [hreferences, List.mapM_cons, findGroup, lookup_numbered h (hmem hattributes)]
    rfl

theorem mapM_resolve {groups : List (List Attribute)} (h : groups.length ≤ UInt32.size)
    {functions : List Function}
    (hmem : ∀ function ∈ functions, function.attributes ≠ [] → function.attributes ∈ groups)
    {entries : List (Function × List (UInt32 × Place))}
    (hentries : entries.map (fun entry => (entry.1, entry.2.map Prod.fst)) =
      functions.map fun function => ({ function.canonical with attributes := [] },
        (groupNumber? groups function).toList)) :
    entries.mapM (resolve (numbered groups)) = .ok (functions.map Function.canonical) := by
  induction functions generalizing entries with
  | nil =>
    rw [List.map_eq_nil_iff.mp hentries]
    rfl
  | cons function rest ih =>
    obtain ⟨entry, others, rfl, hentry, hothers⟩ := List.map_eq_cons_iff.mp hentries
    rw [Prod.mk.injEq] at hentry
    have hfirst := resolve_eq h (hmem function List.mem_cons_self) hentry.1 hentry.2
    have hrest := ih (fun f hf => hmem f (List.mem_cons_of_mem function hf)) hothers
    rw [List.mapM_cons, hfirst]
    change Except.bind (others.mapM (resolve (numbered groups))) _ = _
    rw [hrest]
    rfl

/-- Whether the text of a module spells a module of its form. -/
structure Writable (module : Module) : Prop where
  distinct : (module.globals.map GlobalString.name).Nodup
  sized : ∀ global ∈ module.globals, global.bytes.length < 2 ^ 63
  functions : ∀ function ∈ module.functions, function.Writable
  attributes : ∀ function ∈ module.functions, ∀ attr ∈ function.attributes, attr.Writable

/-- The module that the text of a module spells: declarations stand before definitions, and
constants are those that their text spells. -/
def canonical (module : Module) : Module :=
  { module with
    functions := (module.declarations ++ module.definitions).map Function.canonical }

/-- The tokens of a module up to those of its attribute groups. -/
def entityTokens (module : Module) : List Token :=
  module.source.toList.flatMap sourceTokens ++ (module.opaqueTypes.flatMap opaqueTypeTokens ++
    (module.globals.flatMap GlobalString.tokens ++
      (module.declarations ++ module.definitions).flatMap fun function =>
        function.tokens (groupNumber? module.attributeGroups function)))

theorem groupTokens_eq {groups : List (List Attribute)} (h : groups.length ≤ UInt32.size)
    {function : Function} (hmem : function.attributes ≠ [] → function.attributes ∈ groups) :
    function.groupTokens groups =
      ((groupNumber? groups function).map Token.attrGroup).toList.map some := by
  rw [Function.groupTokens, groupNumber?]
  split
  · rfl
  · next hattributes =>
    have hindex : groups.idxOf function.attributes < groups.length :=
      List.idxOf_lt_length_of_mem (hmem (by simpa using hattributes))
    rw [groupToken_of_lt (by omega)]
    rfl

theorem isDeclaration_of_mem {module : Module} {function : Function}
    (h : function ∈ module.declarations) : function.isDeclaration = true :=
  (List.mem_filter.mp h).2

theorem isDeclaration_of_mem_definitions {module : Module} {function : Function}
    (h : function ∈ module.definitions) : function.isDeclaration = false := by
  simpa using (List.mem_filter.mp h).2

theorem frontTokens_eq {module : Module} (h : module.attributeGroups.length ≤ UInt32.size) :
    module.frontTokens = module.entityTokens.map some := by
  have hdeclarations : module.declarations.flatMap
      (Function.declarationTokens module.attributeGroups) =
      (module.declarations.flatMap fun function =>
        function.tokens (groupNumber? module.attributeGroups function)).map some := by
    rw [List.map_flatMap]
    apply List.flatMap_congr
    intro function hfunction
    have hmem := List.mem_append_left module.definitions hfunction
    rw [Function.declarationTokens, groupTokens_eq h (mem_attributeGroups hmem), Function.tokens,
      Function.keyword, isDeclaration_of_mem hfunction]
    simp
  have hdefinitions : module.definitions.flatMap
      (Function.definitionTokens module.attributeGroups) =
      (module.definitions.flatMap fun function =>
        function.tokens (groupNumber? module.attributeGroups function)).map some := by
    rw [List.map_flatMap]
    apply List.flatMap_congr
    intro function hfunction
    have hmem := List.mem_append_right module.declarations hfunction
    rw [Function.definitionTokens, groupTokens_eq h (mem_attributeGroups hmem), Function.tokens,
      Function.keyword, isDeclaration_of_mem_definitions hfunction]
    simp
  simp only [frontTokens, entityTokens, hdeclarations, hdefinitions, List.flatMap_append,
    List.map_append, List.append_assoc]

theorem mem_functions {module : Module} {function : Function}
    (h : function ∈ module.declarations ++ module.definitions) : function ∈ module.functions := by
  rcases List.mem_append.mp h with h | h
  · exact List.mem_of_mem_filter h
  · exact List.mem_of_mem_filter h

/-- Each entity starts with a token that may follow another. -/
theorem ends_lead_flatMap {ι : Type} {write : ι → List Token}
    (h : ∀ a next, Ends (lead (write a) next)) (items : List ι) {next : Option Token}
    (hnext : Ends next) : Ends (lead (items.flatMap write) next) := by
  cases items with
  | nil => exact hnext
  | cons a rest =>
    rw [List.flatMap_cons, lead_append]
    exact h a _

theorem ends_lead_opaqueType (name : String) (next : Option Token) :
    Ends (lead (opaqueTypeTokens name) next) := by
  simp [Ends, Function.EndsSuffix, NotWord, lead, opaqueTypeTokens]

theorem ends_lead_global (global : GlobalString) (next : Option Token) :
    Ends (lead global.tokens next) := by
  simp [Ends, Function.EndsSuffix, NotWord, lead, GlobalString.tokens]

theorem PlacedGroups.ends_head {source : List Char} {entries : List (List Attribute × Nat)}
    {placed : List PlacedToken} (h : PlacedGroups source entries placed) :
    Ends (placed.head?.map PlacedToken.token) := by
  cases h with
  | nil => simp [Ends, Function.EndsSuffix, NotWord]
  | @cons entry entries first others hfirst _ =>
    obtain ⟨opening, attributes, closing, rfl, hopening, -⟩ := hfirst
    rw [List.append_assoc, List.append_assoc, head?_append_placed hopening]
    exact ends_keyword .attributes

/-- All entities before the attribute groups are read. -/
theorem passes_entities {module : Module} (h : module.Writable) (text : List Char) :
    Passes .topLevel (readNextEntity text) ⟨none, [], [], [], []⟩ module.entityTokens
      (fun draft => ∃ entries : List (Function × List (UInt32 × Place)),
        draft = ⟨module.source, module.opaqueTypes, module.globals, entries, []⟩ ∧
          entries.map (fun entry => (entry.1, entry.2.map Prod.fst)) =
            (module.declarations ++ module.definitions).map fun function =>
              ({ function.canonical with attributes := [] },
                (groupNumber? module.attributeGroups function).toList)) Ends := by
  have hfunctions : ∀ {next}, Ends next → Ends (lead
      ((module.declarations ++ module.definitions).flatMap fun function =>
        function.tokens (groupNumber? module.attributeGroups function)) next) := by
    intro next hnext
    refine ends_lead_flatMap ?_ _ hnext
    exact fun function _ => ends_keyword function.keyword
  refine (passes_source text module.source).append ?_ ?_
  · rintro _ rfl
    refine (passes_opaqueTypes text module.source module.opaqueTypes).append ?_ ?_
    · rintro _ rfl
      refine (passes_globals text module.source module.opaqueTypes h.sized h.distinct).append ?_ ?_
      · rintro _ rfl
        exact passes_functions text module.source module.opaqueTypes module.globals
          (fun function hfunction => h.functions function (mem_functions hfunction))
          (groupNumber? module.attributeGroups)
      · exact fun next hnext => hfunctions hnext
    · intro next hnext
      rw [lead_append]
      exact ends_lead_flatMap ends_lead_global _ (hfunctions hnext)
  · intro next hnext
    rw [lead_append, lead_append]
    exact ends_lead_flatMap ends_lead_opaqueType _
      (ends_lead_flatMap ends_lead_global _ (hfunctions hnext))

theorem writable_of_mem_attributeGroups {module : Module}
    (h : ∀ function ∈ module.functions, ∀ attr ∈ function.attributes, attr.Writable) :
    ∀ group ∈ module.attributeGroups, ∀ attr ∈ group, attr.Writable := by
  intro group hgroup attr hattr
  rw [attributeGroups, List.mem_eraseDups, List.mem_filter, List.mem_map] at hgroup
  obtain ⟨⟨function, hfunction, rfl⟩, -⟩ := hgroup
  exact h function (mem_functions hfunction) attr hattr

/-- The canonical text is read back. -/
theorem parse_text {module : Module} (h : module.Writable)
    (hcount : module.attributeGroups.length ≤ UInt32.size) :
    parse module.text = .ok module.canonical := by
  have hsized : ∀ global ∈ module.globals, global.bytes.length < UInt64.size :=
    fun global hglobal => Nat.lt_trans (h.sized global hglobal) (by decide)
  have hspells : ∀ entry ∈ module.attributeGroups, ∀ a ∈ entry,
      Spells Closed a.text.toList (a.tokens.map some) :=
    fun entry hentry a ha => (writable_of_mem_attributeGroups h.attributes entry hentry a ha).spells
  have hcalm : Source.blankMetadata module.text.toList = module.text.toList :=
    Source.blankMetadata_of_calm (spells_text hsized hspells).calm
  obtain ⟨placed, groups, hscan, htokens, hgroups⟩ :=
    exists_placed_scan hsized hspells hcount (frontTokens_eq hcount)
  obtain ⟨_, n₁, ⟨entries, rfl, hentries⟩, hfront⟩ :=
    passes_entities h module.text.toList placed groups 0 htokens
      (PlacedGroups.ends_head hgroups)
  obtain ⟨n₂, hback⟩ := readEntities_groups hgroups
    (fun entry hentry => writable_of_mem_attributeGroups h.attributes entry.1
      (List.fst_mem_of_mem_zipIdx hentry))
    ⟨module.source, module.opaqueTypes, module.globals, entries, []⟩ (nodup_numbers hcount) n₁
  have hread : readEntities module.text.toList ⟨placed ++ groups, 0⟩ = .ok
      (⟨module.source, module.opaqueTypes, module.globals, entries,
        numbered module.attributeGroups⟩, ⟨[], n₂⟩) := hfront.trans hback
  have hfunctions := mapM_resolve hcount (fun f hf => mem_attributeGroups hf) hentries
  have htext : readText module.text.toList = .ok module.canonical := by
    rw [readText, hscan, placeTokens_map]
    change Except.bind (readEntities module.text.toList ⟨placed ++ groups, 0⟩) _ = _
    rw [hread]
    change Except.bind (entries.mapM (resolve (numbered module.attributeGroups))) _ = _
    rw [hfunctions, moduleName_text]
    rfl
  rw [parse, hcalm, htext]
  rfl

end Module

end QuantumIR
