import QuantumIR.Proofs.Accepted.Modules
import QuantumIR.Proofs.Written.Functions

/-!
Modules as they are written: functions and attribute groups among other entities, in any order. A
function may refer to a group that stands after it.
-/

namespace QuantumIR

open Reading

variable {text : List Char} {state after : ReadState}

/-- Where the last of some tokens stops. -/
def PlacedToken.stop (tokens : List PlacedToken) : Nat :=
  (tokens.getLast?.map fun token => token.span.stop).getD 0

/-- An attribute of a group. One that is not quoted is a word with what is taken after it, and it is
the part of the text from the start of the word on. -/
inductive Attribute.Stands (text : List Char) :
    List PlacedToken → Attribute → List PlacedToken → Prop where
  | quoted {tokens left : List PlacedToken} {attr : Attribute} (h : attr.QuotedStands tokens left) :
      Stands text tokens attr left
  | keyword {word : String} {span : Span} {taken left : List PlacedToken} (h : TakesKeyword taken) :
      Stands text (⟨.word word, span⟩ :: (taken ++ left))
        (.keyword (Source.slice text
          ⟨span.start, PlacedToken.stop (⟨.word word, span⟩ :: taken)⟩)) left

namespace Module

/-- The attributes of a group, up to its closing brace. -/
inductive AttributesStand (text : List Char) :
    List PlacedToken → List Attribute → List PlacedToken → Prop where
  | done {left : List PlacedToken} {span : Span} :
      AttributesStand text (⟨.mark .rightBrace, span⟩ :: left) [] left
  | more {tokens middle left : List PlacedToken} {attr : Attribute} {attributes : List Attribute}
      (h : attr.Stands text tokens middle) (hmore : AttributesStand text middle attributes left) :
      AttributesStand text tokens (attr :: attributes) left

theorem AttributesStand.ne_nil {left : List PlacedToken} {attributes : List Attribute}
    (h : AttributesStand text [] attributes left) : False := by
  cases h with
  | more h _ =>
    cases h with
    | quoted h => cases h

/-- An attribute group with its number. -/
inductive GroupStands (text : List Char) :
    List PlacedToken → UInt32 × List Attribute → List PlacedToken → Prop where
  | mk {tokens left : List PlacedToken} {number : UInt32} {attributes : List Attribute}
      {first second third fourth : Span} (h : AttributesStand text tokens attributes left) :
      GroupStands text
        (⟨.keyword .attributes, first⟩ :: ⟨.attrGroup number, second⟩ :: ⟨.mark .equals, third⟩ ::
          ⟨.mark .leftBrace, fourth⟩ :: tokens)
        (number, attributes) left

/-- Whether a token starts a function or an attribute group. -/
def opensFunctionOrGroup : Option Token → Bool
  | some (.keyword .define) | some (.keyword .declare) | some (.keyword .attributes) => true
  | _ => false

/-- The functions and the attribute groups of a module, each in the order of the text. Other
entities may stand between them. -/
inductive Stands (text : List Char) :
    List PlacedToken → List WrittenFunction → List (UInt32 × List Attribute) → Prop where
  | done : Stands text [] [] []
  | function {tokens left : List PlacedToken} {written : WrittenFunction}
      {functions : List WrittenFunction} {groups : List (UInt32 × List Attribute)}
      (h : written.Stands tokens left) (hmore : Stands text left functions groups) :
      Stands text tokens (written :: functions) groups
  | group {tokens left : List PlacedToken} {group : UInt32 × List Attribute}
      {functions : List WrittenFunction} {groups : List (UInt32 × List Attribute)}
      (h : GroupStands text tokens group left) (hmore : Stands text left functions groups) :
      Stands text tokens functions (group :: groups)
  | other {tokens left : List PlacedToken} {draft draft' : Draft} {functions : List WrittenFunction}
      {groups : List (UInt32 × List Attribute)}
      (hnext : opensFunctionOrGroup (next? tokens) = false)
      (h : Leaves (readEntity text draft) tokens draft' left)
      (hmore : Stands text left functions groups) : Stands text tokens functions groups

theorem stands_of_readKeyword {word : String} {span : Span} {others : List PlacedToken}
    {attr : Attribute} (hrest : state.rest = ⟨.word word, span⟩ :: others)
    (h : readKeyword text state = .ok (attr, after)) (hne : after.rest ≠ []) :
    attr.Stands text state.rest after.rest := by
  obtain ⟨_, _, hbefore, h⟩ := ok_bind h
  cases hbefore
  obtain ⟨_, skipped, hskip, h⟩ := ok_bind h
  obtain ⟨_, _, hafter, h⟩ := ok_bind h
  cases hafter
  cases h
  obtain ⟨taken, rfl, htaken⟩ := Attribute.takesKeyword_of_skipKeyword hrest hskip hne
  rw [hrest, ← List.cons_append, Attribute.stopOfTaken_append]
  exact .keyword htaken

/-- One turn of reading a group finds its end or reads an attribute. -/
theorem cases_of_readAttribute {before : List Attribute} {next : List Attribute ⊕ List Attribute}
    (h : readAttribute text before state = .ok (next, after)) :
    (∃ span, state.rest = ⟨.mark .rightBrace, span⟩ :: after.rest ∧ next = .inr before) ∨
    ∃ attr, next = .inl (before ++ [attr]) ∧
      (after.rest ≠ [] → attr.Stands text state.rest after.rest) := by
  obtain ⟨token?, _, hpeek, hattr⟩ := ok_bind h
  obtain ⟨hfirst, rfl⟩ := eq_of_peek? hpeek
  split at hattr
  · cases hattr
    obtain ⟨span, hspan⟩ := exists_eq_cons hfirst
    exact .inl ⟨span, hspan, rfl⟩
  · obtain ⟨attr, _, hquoted, hgiven⟩ := ok_bind hattr
    cases hgiven
    exact .inr ⟨attr, rfl, fun _ => .quoted (Attribute.stands_of_readQuoted hquoted)⟩
  · obtain ⟨attr, _, hkeyword, hgiven⟩ := ok_bind hattr
    cases hgiven
    obtain ⟨span, hspan⟩ := exists_eq_cons hfirst
    exact .inr ⟨attr, rfl, stands_of_readKeyword hspan hkeyword⟩
  · exact absurd hattr (ne_ok_of_gives fun _ => gives_unexpected _)

theorem stands_of_readAttributes {attributes : List Attribute}
    (h : readAttributes text state = .ok (attributes, after)) :
    AttributesStand text state.rest attributes after.rest := by
  suffices hall : ∀ before, loop .attributeEntry (readAttribute text) before state =
      .ok (attributes, after) → ∃ items, attributes = before ++ items ∧
        AttributesStand text state.rest items after.rest by
    obtain ⟨items, hitems, hstands⟩ := hall [] h
    rw [hitems]
    exact hstands
  intro before hloop
  refine induction_of_loop (motive := fun before state attributes after =>
    ∃ items, attributes = before ++ items ∧ AttributesStand text state.rest items after.rest)
    ?_ ?_ hloop
  · intro before state attributes after hstep
    rcases cases_of_readAttribute hstep with ⟨span, hrest, hall⟩ | ⟨_, hall, -⟩
    · cases hall
      rw [hrest]
      exact ⟨[], (List.append_nil _).symm, .done⟩
    · cases hall
  · intro before state next middle attributes after hstep hmore
    rcases cases_of_readAttribute hstep with ⟨_, _, hall⟩ | ⟨attr, hall, hattr⟩
    · cases hall
    cases hall
    obtain ⟨items, rfl, hstands⟩ := hmore
    have hne : middle.rest ≠ [] := fun hnil => (hnil ▸ hstands).ne_nil
    exact ⟨attr :: items, by simp, .more (hattr hne) hstands⟩

theorem stands_of_readGroup {group : UInt32 × List Attribute}
    (h : readGroup text state = .ok (group, after)) :
    GroupStands text state.rest group after.rest := by
  obtain ⟨_, opened, hkeyword, h⟩ := ok_bind h
  obtain ⟨first, hfirst⟩ := eq_cons_of_expect hkeyword
  obtain ⟨token?, _, hpeek, hgroup⟩ := ok_bind h
  obtain ⟨hsecond, rfl⟩ := eq_of_peek? hpeek
  split at hgroup
  · next number =>
    obtain ⟨second, hsecond⟩ := exists_eq_cons hsecond
    obtain ⟨_, advanced, hadvance, hgroup⟩ := ok_bind hgroup
    obtain ⟨_, equalled, hequals, hgroup⟩ := ok_bind hgroup
    obtain ⟨_, braced, hbrace, hgroup⟩ := ok_bind hgroup
    obtain ⟨attributes, _, hattributes, hgroup⟩ := ok_bind hgroup
    cases hgroup
    cases hadvance
    obtain ⟨third, hthird⟩ := eq_cons_of_expect hequals
    obtain ⟨fourth, hfourth⟩ := eq_cons_of_expect hbrace
    dsimp only at hthird
    rw [hfirst, hsecond, hthird, hfourth]
    exact .mk (stands_of_readAttributes hattributes)
  · exact absurd hgroup (ne_ok_of_gives fun _ => gives_unexpected _)

/-- A function is named in the order of the text, from the number 0 on. -/
def Named (written : WrittenFunction) : Prop :=
  written.sites.map Site.name = written.function.names ∧ ∃ number, Numbered 0 written.sites number

/-- A function that is read is what the text says. -/
def Enters (written : WrittenFunction) (entry : Function × List (UInt32 × Place)) : Prop :=
  written.function = entry.1 ∧ written.groups = entry.2.map Prod.fst ∧ Named written

theorem exists_of_readFunction {entry : Function × List (UInt32 × Place)}
    (h : Function.read state = .ok (entry, after)) :
    ∃ written : WrittenFunction, written.Stands state.rest after.rest ∧ Enters written entry := by
  obtain ⟨isDefinition, sites, number, hstands, hnumbered⟩ := WrittenFunction.stands_of_read h
  exact ⟨_, hstands, rfl, rfl, hstands.names, number, hnumbered⟩

/-- What an entity adds to what has been read of a module: a function, an attribute group with a new
number, or neither. -/
inductive Adds (text : List Char) (before draft : Draft) (tokens left : List PlacedToken) :
    Prop where
  | function (written : WrittenFunction) (entry : Function × List (UInt32 × Place))
      (h : written.Stands tokens left) (henters : Enters written entry)
      (hfunctions : draft.functions = before.functions ++ [entry])
      (hgroups : draft.groups = before.groups)
  | group (group : UInt32 × List Attribute) (h : GroupStands text tokens group left)
      (hnew : group.1 ∉ before.groups.map Prod.fst)
      (hfunctions : draft.functions = before.functions)
      (hgroups : draft.groups = before.groups ++ [group])
  | other (hnext : opensFunctionOrGroup (next? tokens) = false)
      (hfunctions : draft.functions = before.functions) (hgroups : draft.groups = before.groups)

theorem adds_of_readEntity {before draft : Draft}
    (h : readEntity text before state = .ok (draft, after)) :
    Adds text before draft state.rest after.rest := by
  obtain ⟨start, _, hhere, hentity⟩ := ok_bind h
  cases hhere
  obtain ⟨token?, _, hpeek, hentity⟩ := ok_bind hentity
  obtain ⟨hfirst, rfl⟩ := eq_of_peek? hpeek
  split at hentity
  · obtain ⟨_, _, _, hgiven⟩ := ok_bind hentity
    cases hgiven
    exact .other (congrArg opensFunctionOrGroup hfirst) rfl rfl
  · obtain ⟨_, _, _, hgiven⟩ := ok_bind hentity
    cases hgiven
    exact .other (congrArg opensFunctionOrGroup hfirst) rfl rfl
  · obtain ⟨_, _, _, hgiven⟩ := ok_bind hentity
    cases hgiven
    exact .other (congrArg opensFunctionOrGroup hfirst) rfl rfl
  · obtain ⟨global, _, _, hgiven⟩ := ok_bind hentity
    split at hgiven
    · exact absurd hgiven (ne_ok_of_gives fun _ => (gives_failAt _ _).stop)
    · cases hgiven
      exact .other (congrArg opensFunctionOrGroup hfirst) rfl rfl
  · obtain ⟨entry, _, hfunction, hgiven⟩ := ok_bind hentity
    cases hgiven
    obtain ⟨written, hstands, henters⟩ := exists_of_readFunction hfunction
    exact .function written entry hstands henters rfl rfl
  · obtain ⟨entry, _, hfunction, hgiven⟩ := ok_bind hentity
    cases hgiven
    obtain ⟨written, hstands, henters⟩ := exists_of_readFunction hfunction
    exact .function written entry hstands henters rfl rfl
  · obtain ⟨group, _, hgroup, hgiven⟩ := ok_bind hentity
    split at hgiven
    · exact absurd hgiven (ne_ok_of_gives fun _ => (gives_failAt _ _).stop)
    · next hnew =>
      cases hgiven
      refine .group group (stands_of_readGroup hgroup) ?_ rfl rfl
      intro hmem
      obtain ⟨other, hother, heq⟩ := List.mem_map.mp hmem
      exact hnew (List.any_eq_true.mpr ⟨other, hother, by simpa using heq⟩)
  · exact absurd hentity (ne_ok_of_gives fun _ => gives_unexpected _)

/-- What is read of a module from some tokens on, after what has been read of it before. -/
def ReadsOn (text : List Char) (tokens : List PlacedToken) (before draft : Draft) : Prop :=
  ∃ functions groups entries, Stands text tokens functions groups ∧
    List.Forall₂ Enters functions entries ∧ draft.functions = before.functions ++ entries ∧
    draft.groups = before.groups ++ groups ∧
    ((before.groups.map Prod.fst).Nodup → (draft.groups.map Prod.fst).Nodup)

theorem readsOn_of_readEntities {draft : Draft}
    (h : readEntities text state = .ok (draft, after)) :
    ReadsOn text state.rest ⟨none, [], [], [], []⟩ draft := by
  refine induction_of_loop (motive := fun before state draft _ =>
    ReadsOn text state.rest before draft) ?_ ?_ h
  · intro before state draft after hstep
    obtain ⟨token?, _, hpeek, hturn⟩ := ok_bind hstep
    obtain ⟨hfirst, rfl⟩ := eq_of_peek? hpeek
    split at hturn
    · next hnone =>
      cases hturn
      have hend := hfirst.trans (Option.isNone_iff_eq_none.mp hnone)
      rw [Option.map_eq_none_iff, List.head?_eq_none_iff] at hend
      rw [hend]
      exact ⟨[], [], [], .done, .nil, (List.append_nil _).symm, (List.append_nil _).symm, id⟩
    · obtain ⟨_, _, _, hgiven⟩ := ok_bind hturn
      cases hgiven
  · intro before state next middle draft after hstep hmore
    obtain ⟨token?, _, hpeek, hturn⟩ := ok_bind hstep
    obtain ⟨hfirst, rfl⟩ := eq_of_peek? hpeek
    split at hturn
    · cases hturn
    · obtain ⟨added, _, hentity, hgiven⟩ := ok_bind hturn
      cases hgiven
      have hleaves := leaves_of_ok hentity
      obtain ⟨functions, groups, entries, hstands, henters, hfunctions, hgroups, hnodup⟩ := hmore
      cases adds_of_readEntity hentity with
      | function written entry h henters' hadded hsame =>
        refine ⟨written :: functions, groups, entry :: entries, .function h hstands,
          .cons henters' henters, ?_, ?_, ?_⟩
        · rw [hfunctions, hadded, List.append_assoc, List.singleton_append]
        · rw [hgroups, hsame]
        · rwa [hsame] at hnodup
      | group group h hnew hsame hadded =>
        refine ⟨functions, group :: groups, entries, .group h hstands, henters, ?_, ?_, ?_⟩
        · rw [hfunctions, hsame]
        · rw [hgroups, hadded, List.append_assoc, List.singleton_append]
        · intro hbefore
          apply hnodup
          rw [hadded, List.map_append, List.map_singleton, List.nodup_append_comm]
          exact List.nodup_cons.mpr ⟨hnew, hbefore⟩
      | other hnext hsame hsame' =>
        refine ⟨functions, groups, entries, .other hnext hleaves hstands, henters, ?_, ?_, ?_⟩
        · rw [hfunctions, hsame]
        · rw [hgroups, hsame']
        · rwa [hsame'] at hnodup

end Module

/-- A function of a module has the contents of the groups that it refers to before the attributes of
its own. Everything else in it is as it is written. -/
def WrittenFunction.Resolves (groups : List (UInt32 × List Attribute)) (written : WrittenFunction)
    (function : Function) : Prop :=
  ∃ contents, List.Forall₂ (fun number attributes => (number, attributes) ∈ groups) written.groups
      contents ∧
    function = { written.function with
      attributes := contents.flatten ++ written.function.attributes }

namespace Module

/-- What a module is read from: the functions and the attribute groups that a text says. -/
structure WrittenAs (source : String) (module : Module) (functions : List WrittenFunction)
    (groups : List (UInt32 × List Attribute)) : Prop where
  stands : ∃ tokens, Lexeme.scan (Source.blankMetadata source.toList) = tokens.map Lexeme.ofPlaced ∧
    Stands (Source.blankMetadata source.toList) tokens functions groups
  distinct : (groups.map Prod.fst).Nodup
  resolves : List.Forall₂ (WrittenFunction.Resolves groups) functions module.functions

theorem mem_of_findGroup {groups : List (UInt32 × List Attribute)} {reference : UInt32 × Place}
    {attributes : List Attribute} (h : findGroup groups reference = .ok attributes) :
    (reference.1, attributes) ∈ groups := by
  rw [findGroup] at h
  split at h
  · next hlookup =>
    cases h
    obtain ⟨before, others, rfl, -⟩ := List.lookup_eq_some_iff.mp hlookup
    simp
  · cases h

theorem resolves_of_resolve {groups : List (UInt32 × List Attribute)} {written : WrittenFunction}
    {entry : Function × List (UInt32 × Place)} {function : Function}
    (henters : Enters written entry)
    (h : resolve groups entry = .ok function) : written.Resolves groups function := by
  obtain ⟨hfunction, hgroups, -⟩ := henters
  rw [resolve] at h
  obtain ⟨contents, hcontents, h⟩ := Verification.bind_eq_ok.mp h
  cases h
  refine ⟨contents, ?_, by rw [hfunction]⟩
  rw [hgroups, List.forall₂_map_left_iff]
  exact (Verification.mapM_eq_ok.mp hcontents).imp fun _ _ => mem_of_findGroup

theorem resolves_of_mapM {groups : List (UInt32 × List Attribute)}
    {functions : List WrittenFunction}
    {entries : List (Function × List (UInt32 × Place))} {resolved : List Function}
    (henters : List.Forall₂ Enters functions entries)
    (h : List.Forall₂ (fun entry function => resolve groups entry = .ok function)
      entries resolved) :
    List.Forall₂ (fun written function => written.Resolves groups function ∧ Named written)
      functions
      resolved := by
  induction henters generalizing resolved with
  | nil =>
    cases h
    exact .nil
  | cons henter _ ih =>
    cases h with
    | cons h hmore => exact .cons ⟨resolves_of_resolve henter h, henter.2.2⟩ (ih hmore)

/-- Every module that is read is written in its text. Each function is named in the order of the
text. -/
theorem exists_writtenAs {source : String} {module : Module} (h : parse source = .ok module) :
    ∃ functions groups, WrittenAs source module functions groups ∧
      List.Forall₂ (fun written function => written.Resolves groups function ∧ Named written)
        functions
        module.functions := by
  have hread := readText_of_parse h
  rw [readText] at hread
  obtain ⟨tokens, htokens, hread⟩ := Verification.bind_eq_ok.mp hread
  obtain ⟨⟨draft, after⟩, hdraft, hread⟩ := Verification.bind_eq_ok.mp hread
  obtain ⟨resolved, hresolved, hread⟩ := Verification.bind_eq_ok.mp hread
  cases hread
  obtain ⟨functions, groups, entries, hstands, henters, hfunctions, hgroups, hdistinct⟩ :=
    readsOn_of_readEntities hdraft
  rw [List.nil_append] at hfunctions hgroups
  rw [hfunctions, hgroups] at hresolved
  rw [hgroups] at hdistinct
  have hscan := Lexeme.eq_map_of_placeTokens htokens
  have hall := resolves_of_mapM henters (Verification.mapM_eq_ok.mp hresolved)
  exact ⟨functions, groups,
    ⟨⟨tokens, hscan, hstands⟩, hdistinct List.nodup_nil, hall.imp fun _ _ h => h.1⟩, hall⟩

end Module

end QuantumIR
