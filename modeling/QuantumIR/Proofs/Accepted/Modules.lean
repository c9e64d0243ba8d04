import QuantumIR.Proofs.Accepted.Keywords
import QuantumIR.Proofs.Verified.Canonical

/-!
Modules that are read can be written. So the canonical text of a module that is read is read again,
as the module that the text spells.
-/

namespace QuantumIR

open Reading Lexeme

variable {row : List PlacedToken} {text : List Char}

namespace Module

theorem gives_readSource : Gives row readSource fun _ => True := by
  apply (gives_expect _).skip
  intro _
  exact (gives_expect _).skip fun _ => gives_stringLiteral

theorem gives_readTarget : Gives row readTarget fun _ => True := by
  have hentry : Gives row (do
      expectMark .equals
      let _ ← stringLiteral) fun _ => True :=
    (gives_expect _).skip fun _ => gives_stringLiteral.skip fun _ => Gives.pure trivial
  apply (gives_expect _).skip
  intro _
  apply (gives_takeIf _).skip
  intro found
  apply Gives.ite
  · intro _
    apply (gives_takeIf _).skip
    intro found
    apply Gives.ite
    · intro _
      exact (gives_unexpected .targetEntry).stop
    · intro _
      exact hentry
  · intro _
    exact hentry

theorem gives_readOpaqueType : Gives row readOpaqueType fun _ => True := by
  apply gives_localName.skip
  intro name
  apply (gives_expect _).skip
  intro _
  apply (gives_expect _).skip
  intro _
  apply (gives_takeIf _).skip
  intro found
  apply Gives.ite
  · intro _
    exact Gives.pure trivial
  · intro _
    exact gives_unsupported .structType

theorem gives_skipAlignments : Gives row skipAlignments fun _ => True := by
  refine Gives.loop (fun _ => True) ?_ trivial
  intro _ _
  apply (gives_takeIf _).skip
  intro found
  apply Gives.ite
  · intro _
    apply (gives_takeIf _).skip
    intro found
    apply Gives.ite
    · intro _
      exact (gives_unexpected .align).stop
    · intro _
      exact gives_integer.skip fun _ => Gives.pure trivial
  · intro _
    exact Gives.pure trivial

/-- There are as many bytes as the type says. -/
theorem gives_readBytes (length : UInt64) :
    Gives row (readBytes length) fun bytes => bytes.length = length.toNat := by
  apply gives_peek?.skip
  intro token?
  split
  · apply Gives.ite
    · intro _
      exact (gives_unsupported _).stop
    · intro hlength
      exact gives_advance.skip fun _ => Gives.pure (not_not.mp hlength)
  · exact gives_unsupported .globalInitializer

theorem gives_readGlobal :
    Gives row readGlobal fun global => global.bytes.length < 2 ^ 63 := by
  apply gives_globalName.skip
  intro name
  apply (gives_expect _).skip
  intro _
  apply (gives_skipWords _).skip
  intro _
  apply (gives_takeIf _).skip
  intro found
  refine Gives.ite (fun _ => (gives_takeIf _).skip fun found => Gives.ite
    (fun _ => (gives_unexpected .constantOrGlobal).stop) fun _ => ?_) fun _ => ?_
  -- After either keyword, the type and the bytes are read in the same way.
  all_goals
    apply gives_here.skip
    intro start
    apply Ty.gives_read.bind
    intro ty hty
    split
    · apply (gives_readBytes _).bind
      intro bytes hbytes
      apply gives_skipAlignments.skip
      intro _
      apply Gives.pure
      rw [hbytes]
      exact hty.1
    · exact gives_unsupportedAt _ _

theorem gives_readGroup (hcalm : Source.Calm text) (hscan : scan text = row.map ofPlaced) :
    Gives row (readGroup text) fun group => ∀ attr ∈ group.2, attr.Writable := by
  apply (gives_expect _).skip
  intro _
  apply gives_peek?.skip
  intro token?
  split
  · apply gives_advance.skip
    intro _
    apply (gives_expect _).skip
    intro _
    apply (gives_expect _).skip
    intro _
    exact (Attribute.gives_readAttributes hcalm hscan).bind fun _ hall => Gives.pure hall
  · exact gives_unexpected .groupNumber

/-- What has been read of a module so far can be written. -/
structure Draft.Writable (draft : Draft) : Prop where
  distinct : (draft.globals.map GlobalString.name).Nodup
  sized : ∀ global ∈ draft.globals, global.bytes.length < 2 ^ 63
  functions : ∀ entry ∈ draft.functions,
    entry.1.Writable ∧ ∀ attr ∈ entry.1.attributes, attr.Writable
  groups : ∀ group ∈ draft.groups, ∀ attr ∈ group.2, attr.Writable

/-- One entity more can be written too. -/
theorem gives_readEntity (hcalm : Source.Calm text) (hscan : scan text = row.map ofPlaced)
    {draft : Draft} (h : draft.Writable) :
    Gives row (readEntity text draft) Draft.Writable := by
  apply gives_here.skip
  intro start
  apply gives_peek?.skip
  intro token?
  split
  · exact gives_readSource.skip fun _ =>
      Gives.pure ⟨h.distinct, h.sized, h.functions, h.groups⟩
  · exact gives_readTarget.skip fun _ => Gives.pure h
  · exact gives_readOpaqueType.skip fun _ =>
      Gives.pure ⟨h.distinct, h.sized, h.functions, h.groups⟩
  · apply gives_readGlobal.bind
    intro global hglobal
    apply Gives.ite
    · intro _
      exact (gives_failAt _ _).stop
    · intro hnew
      refine Gives.pure ⟨?_, ?_, h.functions, h.groups⟩
      · rw [List.map_append, List.map_singleton, List.nodup_append_comm]
        refine List.nodup_cons.mpr ⟨?_, h.distinct⟩
        intro hmem
        obtain ⟨other, hother, hname⟩ := List.mem_map.mp hmem
        exact hnew (List.any_eq_true.mpr ⟨other, hother, by simpa using hname⟩)
      · exact List.forall_mem_append.mpr ⟨h.sized, List.forall_mem_singleton.mpr hglobal⟩
  · apply Function.gives_read.bind
    intro entry hentry
    refine Gives.pure ⟨h.distinct, h.sized, ?_, h.groups⟩
    exact List.forall_mem_append.mpr ⟨h.functions, List.forall_mem_singleton.mpr hentry⟩
  · apply Function.gives_read.bind
    intro entry hentry
    refine Gives.pure ⟨h.distinct, h.sized, ?_, h.groups⟩
    exact List.forall_mem_append.mpr ⟨h.functions, List.forall_mem_singleton.mpr hentry⟩
  · apply (gives_readGroup hcalm hscan).bind
    intro group hgroup
    apply Gives.ite
    · intro _
      exact (gives_failAt _ _).stop
    · intro _
      refine Gives.pure ⟨h.distinct, h.sized, h.functions, ?_⟩
      exact List.forall_mem_append.mpr ⟨h.groups, List.forall_mem_singleton.mpr hgroup⟩
  · exact gives_unexpected .topLevel

theorem gives_readEntities (hcalm : Source.Calm text) (hscan : scan text = row.map ofPlaced) :
    Gives row (readEntities text) Draft.Writable := by
  have hempty : Draft.Writable ⟨none, [], [], [], []⟩ := by
    constructor <;> simp
  refine Gives.loop Draft.Writable ?_ hempty
  intro draft hdraft
  apply gives_peek?.skip
  intro token?
  apply Gives.ite
  · intro _
    exact Gives.pure hdraft
  · intro _
    exact (gives_readEntity hcalm hscan hdraft).bind fun _ h => Gives.pure h

/-- What a function refers to is written with it. -/
theorem writable_of_resolve {groups : List (UInt32 × List Attribute)}
    (hgroups : ∀ group ∈ groups, ∀ attr ∈ group.2, attr.Writable)
    {entry : Function × List (UInt32 × Place)}
    (hentry : entry.1.Writable ∧ ∀ attr ∈ entry.1.attributes, attr.Writable)
    {function : Function} (h : resolve groups entry = .ok function) :
    function.Writable ∧ ∀ attr ∈ function.attributes, attr.Writable := by
  rw [resolve] at h
  obtain ⟨found, hfound, h⟩ := Verification.bind_eq_ok.mp h
  cases h
  refine ⟨hentry.1, List.forall_mem_append.mpr ⟨?_, hentry.2⟩⟩
  intro attr hattr
  obtain ⟨attributes, hattributes, hattr⟩ := List.mem_flatten.mp hattr
  obtain ⟨reference, -, hreference⟩ := Verification.mem_of_mapM hfound hattributes
  rw [findGroup] at hreference
  split at hreference
  · next hlookup =>
    cases hreference
    obtain ⟨before, others, rfl, -⟩ := List.lookup_eq_some_iff.mp hlookup
    exact hgroups (reference.1, attributes) (by simp) attr hattr
  · cases hreference

/-- Modules that are read can be written. -/
theorem writable_of_readText (hcalm : Source.Calm text) {module : Module}
    (h : readText text = .ok module) : module.Writable := by
  rw [readText] at h
  obtain ⟨tokens, htokens, h⟩ := Verification.bind_eq_ok.mp h
  obtain ⟨⟨draft, after⟩, hdraft, h⟩ := Verification.bind_eq_ok.mp h
  obtain ⟨functions, hfunctions, h⟩ := Verification.bind_eq_ok.mp h
  cases h
  have hscan := eq_map_of_placeTokens htokens
  obtain ⟨hwritable, -⟩ :=
    gives_readEntities hcalm hscan _ _ _ (List.suffix_refl tokens) hdraft
  have hall : ∀ function ∈ functions,
      function.Writable ∧ ∀ attr ∈ function.attributes, attr.Writable := by
    intro function hfunction
    obtain ⟨entry, hentry, hresolve⟩ := Verification.mem_of_mapM hfunctions hfunction
    exact writable_of_resolve hwritable.groups (hwritable.functions entry hentry) hresolve
  exact ⟨hwritable.distinct, hwritable.sized, fun function hfunction => (hall function hfunction).1,
    fun function hfunction => (hall function hfunction).2⟩

/-- What a text spells is read from it once its metadata lines are blanked out. -/
theorem readText_of_parse {source : String} {module : Module} (h : parse source = .ok module) :
    readText (Source.blankMetadata source.toList) = .ok module := by
  rw [parse] at h
  cases hread : readText (Source.blankMetadata source.toList) with
  | error fault =>
    rw [hread] at h
    cases h
  | ok found =>
    rw [hread] at h
    cases h
    rfl

/-- Modules that texts spell can be written. -/
theorem writable_of_parse {source : String} {module : Module} (h : parse source = .ok module) :
    module.Writable :=
  writable_of_readText (Source.calm_blankMetadata source.toList) (readText_of_parse h)

end Module

end QuantumIR
