import QuantumIR.Proofs.Canonical.TextTokens
import QuantumIR.Proofs.Reading.Attributes
import QuantumIR.Proofs.Reading.Functions

/-!
The entities of a module are read back one after the other. Functions are read with the numbers of
their attribute groups; the groups stand at the end and are read last.
-/

namespace QuantumIR

open Reading Lexeme

namespace Module

/-- What may follow an entity. -/
def Ends (next : Option Token) : Prop :=
  next ≠ some (.mark .comma) ∧ Function.EndsSuffix next

theorem ends_keyword (word : Keyword) : Ends (some (.keyword word)) := by
  simp [Ends, Function.EndsSuffix, NotWord]

theorem takes_skipAlignments_ne :
    Takes skipAlignments [] (fun _ => True) (· ≠ some (.mark .comma)) :=
  Takes.loop_last (Takes.takeIf_ne
    (Takes.otherwise Bool.false_ne_true (Takes.pure ⟨(), rfl, trivial⟩)) fun _ hnext => hnext)

theorem takes_readBytes {bytes : List UInt8} {length : UInt64} (h : bytes.length = length.toNat) :
    Takes (readBytes length) [.bytes bytes] (· = bytes) Free :=
  Takes.peek?_cons (Takes.otherwise (not_not_intro h) (Takes.advance (Takes.pure rfl)))

theorem takes_readGlobal {global : GlobalString} (h : global.bytes.length < 2 ^ 63) :
    Takes readGlobal global.tokens (· = global) (· ≠ some (.mark .comma)) := by
  obtain ⟨length, hlength⟩ : ∃ length, length = UInt64.ofNat global.bytes.length := ⟨_, rfl⟩
  have hnat : length.toNat = global.bytes.length := by
    rw [hlength, UInt64.toNat_ofNat_of_lt' (Nat.lt_trans h (by decide))]
  have hsized : (Ty.array length (.int 8)).Sized := ⟨hnat ▸ h, trivial⟩
  have htokens : global.tokens = .globalName global.name :: .mark .equals ::
      ([.word "internal"] ++ (.keyword .constant :: ((Ty.array length (.int 8)).tokens ++
        [.bytes global.bytes]))) := by
    rw [Ty.tokens, hnat]
    rfl
  rw [htokens]
  refine (takes_globalName global.name).bindOne ?_ (fun _ _ => trivial)
  rintro name hname
  refine Takes.expect ?_
  have hinternal : Takes (skipWords fun _ => true) [.word "internal"] (fun _ => True) NotWord :=
    takes_skipWords_one rfl
  refine hinternal.bind ?_ (fun _ _ => by simp [NotWord, lead])
  intro _ _
  refine Takes.takeIf (Takes.otherwise Bool.false_ne_true ?_)
  refine Takes.here fun start => ?_
  refine (Ty.takes_read hsized).bind ?_ (fun _ _ => by simp [Ty.Ends, lead])
  rintro _ rfl
  refine (takes_readBytes hnat.symm).bindOne ?_ (fun _ _ => trivial)
  rintro bytes hbytes
  refine takes_skipAlignments_ne.look ?_ (fun _ hnext => hnext)
  intro _ _
  refine Takes.pure ?_
  rw [hname, hbytes]

theorem takes_readOpaqueType (name : String) :
    Takes readOpaqueType (opaqueTypeTokens name) (· = name) Free := by
  refine (takes_localName name).bindOne ?_ (fun _ _ => trivial)
  rintro name rfl
  exact Takes.expect (Takes.expect (Takes.takeIf (Takes.provided rfl (Takes.pure rfl))))

theorem takes_readSource (source : String) :
    Takes readSource (sourceTokens source) (· = source) Free :=
  Takes.expect (Takes.expect (takes_stringLiteral source))

variable (text : List Char)

/-- An entity that stands there is the next one. -/
theorem takes_readNextEntity {draft : Draft} {token : Token} {tokens : List Token}
    {result : Draft → Prop} {follow : Option Token → Prop}
    (h : Takes (readEntity text draft) (token :: tokens) result follow) :
    Takes (readNextEntity text draft) (token :: tokens)
      (fun after => ∃ draft', after = .inl draft' ∧ result draft') follow := by
  refine Takes.peek?_cons (Takes.otherwise Bool.false_ne_true ?_)
  refine h.last ?_ (fun _ hnext => hnext)
  intro draft' hdraft
  exact Takes.pure ⟨draft', rfl, hdraft⟩

theorem takes_readEntity_source (draft : Draft) (source : String) :
    Takes (readEntity text draft) (sourceTokens source)
      (· = { draft with source := some source }) Free := by
  refine Takes.here fun start => Takes.peek?_cons ?_
  refine (takes_readSource source).last ?_ fun _ _ => trivial
  rintro _ rfl
  exact Takes.pure rfl

theorem takes_readEntity_opaqueType (draft : Draft) (name : String) :
    Takes (readEntity text draft) (opaqueTypeTokens name)
      (· = { draft with opaqueTypes := draft.opaqueTypes ++ [name] }) Free := by
  refine Takes.here fun start => Takes.peek?_cons ?_
  refine (takes_readOpaqueType name).last ?_ fun _ _ => trivial
  rintro _ rfl
  exact Takes.pure rfl

theorem takes_readEntity_global (draft : Draft) {global : GlobalString}
    (h : global.bytes.length < 2 ^ 63)
    (hdistinct : ∀ other ∈ draft.globals, other.name ≠ global.name) :
    Takes (readEntity text draft) global.tokens
      (· = { draft with globals := draft.globals ++ [global] }) (· ≠ some (.mark .comma)) := by
  have hany : (draft.globals.any fun other => other.name = global.name) = false := by
    rw [List.any_eq_false]
    intro other hother
    rw [decide_eq_true_eq]
    exact hdistinct other hother
  refine Takes.here fun start => Takes.peek?_cons ?_
  refine (takes_readGlobal h).last ?_ (fun _ hnext => hnext)
  rintro global rfl
  refine Takes.otherwise ?_ (Takes.pure rfl)
  rw [hany]
  exact Bool.false_ne_true

theorem takes_readEntity_function (draft : Draft) {function : Function} (h : function.Writable)
    (number : Option UInt32) :
    Takes (readEntity text draft) (function.tokens number)
      (fun draft' => ∃ entry : Function × List (UInt32 × Place),
        draft' = { draft with functions := draft.functions ++ [entry] } ∧
          entry.1 = { function.canonical with attributes := [] } ∧
            entry.2.map Prod.fst = number.toList) Function.EndsSuffix := by
  have hread : Takes (Function.read >>= fun entry =>
      pure { draft with functions := draft.functions ++ [entry] }) (function.tokens number)
      (fun draft' => ∃ entry : Function × List (UInt32 × Place),
        draft' = { draft with functions := draft.functions ++ [entry] } ∧
          entry.1 = { function.canonical with attributes := [] } ∧
            entry.2.map Prod.fst = number.toList) Function.EndsSuffix := by
    refine (Function.takes_read h number).last ?_ (fun _ hnext => hnext)
    intro entry hentry
    exact Takes.pure ⟨entry, rfl, hentry⟩
  refine Takes.here fun start => ?_
  have htokens : function.tokens number =
      .keyword function.keyword :: (function.tokens number).tail := rfl
  rw [htokens] at hread ⊢
  refine Takes.peek?_cons ?_
  rcases function.keyword_cases with hkeyword | hkeyword
  · rw [hkeyword] at hread ⊢
    exact hread
  · rw [hkeyword] at hread ⊢
    exact hread

theorem passes_source (source : Option String) :
    Passes .topLevel (readNextEntity text) ⟨none, [], [], [], []⟩
      (source.toList.flatMap sourceTokens) (· = ⟨source, [], [], [], []⟩) Ends := by
  cases source with
  | none => exact Passes.nil rfl
  | some source =>
    have hread := takes_readNextEntity text
      (takes_readEntity_source text ⟨none, [], [], [], []⟩ source)
    rw [Option.toList_some, List.flatMap_singleton]
    exact (hread.before fun _ _ => trivial).passes (List.cons_ne_nil _ _)

theorem passes_opaqueTypes (source : Option String) (names : List String) :
    Passes .topLevel (readNextEntity text) ⟨source, [], [], [], []⟩
      (names.flatMap opaqueTypeTokens) (· = ⟨source, names, [], [], []⟩) Ends := by
  refine passes_flatMap (fun before (draft : Draft) =>
    draft = ⟨source, before, [], [], []⟩) rfl ?_ ?_
  · rintro before name after _ - rfl
    have hread := takes_readNextEntity text
      (takes_readEntity_opaqueType text ⟨source, before, [], [], []⟩ name)
    exact hread.before fun _ _ => trivial
  · intro name next
    exact ⟨List.cons_ne_nil _ _, by simp [Ends, Function.EndsSuffix, NotWord, lead,
      opaqueTypeTokens]⟩

theorem passes_globals (source : Option String) (names : List String) {globals : List GlobalString}
    (hsized : ∀ global ∈ globals, global.bytes.length < 2 ^ 63)
    (hdistinct : (globals.map GlobalString.name).Nodup) :
    Passes .topLevel (readNextEntity text) ⟨source, names, [], [], []⟩
      (globals.flatMap GlobalString.tokens) (· = ⟨source, names, globals, [], []⟩) Ends := by
  refine passes_flatMap (fun before (draft : Draft) =>
    draft = ⟨source, names, before, [], []⟩) rfl ?_ ?_
  · rintro before global after _ rfl rfl
    have hother : ∀ other ∈ before, other.name ≠ global.name := by
      intro other hother heq
      rw [List.map_append, List.nodup_append] at hdistinct
      exact hdistinct.2.2 other.name (List.mem_map_of_mem hother) global.name (by simp) heq
    have hread := takes_readNextEntity text (takes_readEntity_global text
      ⟨source, names, before, [], []⟩ (hsized global (by simp)) hother)
    exact hread.before fun _ hnext => hnext.1
  · intro global next
    exact ⟨List.cons_ne_nil _ _, by simp [Ends, Function.EndsSuffix, NotWord, lead,
      GlobalString.tokens]⟩

theorem passes_functions (source : Option String) (names : List String)
    (globals : List GlobalString) {functions : List Function}
    (h : ∀ function ∈ functions, function.Writable) (numbers : Function → Option UInt32) :
    Passes .topLevel (readNextEntity text) ⟨source, names, globals, [], []⟩
      (functions.flatMap fun function => function.tokens (numbers function))
      (fun draft => ∃ entries : List (Function × List (UInt32 × Place)),
        draft = ⟨source, names, globals, entries, []⟩ ∧
          entries.map (fun entry => (entry.1, entry.2.map Prod.fst)) =
            functions.map fun function =>
              ({ function.canonical with attributes := [] }, (numbers function).toList)) Ends := by
  refine passes_flatMap (fun before (draft : Draft) =>
    ∃ entries : List (Function × List (UInt32 × Place)),
    draft = ⟨source, names, globals, entries, []⟩ ∧
      entries.map (fun entry => (entry.1, entry.2.map Prod.fst)) =
        before.map fun function =>
          ({ function.canonical with attributes := [] }, (numbers function).toList))
    ⟨[], rfl, rfl⟩ ?_ ?_
  · rintro before function after _ rfl ⟨entries, rfl, hentries⟩
    have hread := takes_readNextEntity text (takes_readEntity_function text
      ⟨source, names, globals, entries, []⟩ (h function (by simp)) (numbers function))
    refine hread.weaken ?_ (fun _ hnext => hnext.2)
    rintro _ ⟨_, rfl, entry, rfl, hfunction, hnumber⟩
    refine ⟨_, rfl, entries ++ [entry], rfl, ?_⟩
    rw [List.map_append, List.map_append, hentries, List.map_singleton, List.map_singleton,
      hfunction, hnumber]
  · intro function next
    exact ⟨List.cons_ne_nil _ _, ends_keyword function.keyword⟩

end Module

end QuantumIR
