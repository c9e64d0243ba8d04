import QuantumIR.Proofs.Written.Bodies

/-!
Functions as they are written. Between the parameters and the body a function refers to attribute
groups and has attributes of its own, in any order. Words, which may have arguments or a number, and
metadata stand there too and are dropped.
-/

namespace QuantumIR

open Reading

variable {isDefinition : Bool} {state after : ReadState}

/-- A quoted attribute stands in front of some tokens. -/
inductive Attribute.QuotedStands : List PlacedToken → Attribute → List PlacedToken → Prop where
  | flag {left : List PlacedToken} {key : String} {span : Span}
      (hnext : next? left ≠ some (.mark .equals)) :
      QuotedStands (⟨.string key, span⟩ :: left) (.flag key) left
  | keyValue {left : List PlacedToken} {key value : String} {span equals span' : Span} :
      QuotedStands
        (⟨.string key, span⟩ :: ⟨.mark .equals, equals⟩ :: ⟨.string value, span'⟩ :: left)
        (.keyValue key value) left

theorem Reading.eq_cons_of_stringLiteral {text : String}
    (h : stringLiteral state = .ok (text, after)) :
    ∃ span, state.rest = ⟨.string text, span⟩ :: after.rest := by
  obtain ⟨token?, _, hpeek, htext⟩ := ok_bind h
  obtain ⟨hfirst, rfl⟩ := eq_of_peek? hpeek
  split at htext
  · cases htext
    exact exists_eq_cons hfirst
  · exact absurd htext (ne_ok_of_gives fun _ => gives_unexpected _)

theorem Attribute.stands_of_readQuoted {attr : Attribute}
    (h : Attribute.readQuoted state = .ok (attr, after)) :
    QuotedStands state.rest attr after.rest := by
  obtain ⟨key, read, hkey, h⟩ := ok_bind h
  obtain ⟨span, hrest⟩ := eq_cons_of_stringLiteral hkey
  obtain ⟨found, middle, hequals, h⟩ := ok_bind h
  rw [hrest]
  cases found with
  | false =>
    cases h
    obtain ⟨rfl, hnot⟩ := of_takeIf_eq_false hequals
    exact .flag hnot
  | true =>
    obtain ⟨⟨_, equals⟩, hmiddle, rfl⟩ := exists_of_takeIf_eq_true hequals
    obtain ⟨value, _, hvalue, h⟩ := ok_bind h
    cases h
    obtain ⟨span', hlast⟩ := eq_cons_of_stringLiteral hvalue
    rw [hmiddle, hlast]
    exact .keyValue

namespace Function

/-- Arguments in parentheses, up to the parenthesis that closes the first one. -/
inductive Arguments : List PlacedToken → Prop where
  | mk {opening closing : Span} {inner : List PlacedToken}
      (h : afterParens 1 (inner ++ [⟨.mark .rightParen, closing⟩]) = some []) :
      Arguments (⟨.mark .leftParen, opening⟩ :: (inner ++ [⟨.mark .rightParen, closing⟩]))

/-- What is taken after a word: its arguments, or else a number, if there is one. -/
inductive WordStands : List PlacedToken → List PlacedToken → Prop where
  | arguments {taken left : List PlacedToken} (h : Arguments taken) :
      WordStands (taken ++ left) left
  | number {n : Int64} {span : Span} {left : List PlacedToken} :
      WordStands (⟨.integer n, span⟩ :: left) left
  | alone {left : List PlacedToken} (hparen : next? left ≠ some (.mark .leftParen))
      (hnumber : ∀ n, next? left ≠ some (.integer n)) : WordStands left left

/-- Whether a token starts something that stands between parameters and body. -/
def opensSuffix : Option Token → Bool
  | some (.attrGroup _) | some (.string _) | some (.word _) | some (.metadata _) => true
  | _ => false

/-- One of the things between parameters and body: a reference to an attribute group, an attribute
of the function itself, or something that is dropped. -/
inductive EntryStands :
    List PlacedToken → List UInt32 → List Attribute → List PlacedToken → Prop where
  | group {left : List PlacedToken} {number : UInt32} {span : Span} :
      EntryStands (⟨.attrGroup number, span⟩ :: left) [number] [] left
  | quoted {tokens left : List PlacedToken} {attr : Attribute} (h : attr.QuotedStands tokens left) :
      EntryStands tokens [] [attr] left
  | word {tokens left : List PlacedToken} {word : String} {span : Span}
      (h : WordStands tokens left) : EntryStands (⟨.word word, span⟩ :: tokens) [] [] left
  | metadata {left : List PlacedToken} {name : String} {span : Span} :
      EntryStands (⟨.metadata name, span⟩ :: left) [] [] left

/-- What stands between parameters and body: the attribute groups that are referred to, and the
attributes of the function itself, each in the order of the text. -/
inductive SuffixStands :
    List PlacedToken → List UInt32 → List Attribute → List PlacedToken → Prop where
  | done {left : List PlacedToken} (hnext : opensSuffix (next? left) = false) :
      SuffixStands left [] [] left
  | more {tokens middle left : List PlacedToken} {first groups : List UInt32}
      {own attributes : List Attribute} (h : EntryStands tokens first own middle)
      (hmore : SuffixStands middle groups attributes left) :
      SuffixStands tokens (first ++ groups) (own ++ attributes) left

theorem wordStands_of_skip {middle : ReadState} {found : Bool} {done : Unit}
    (hparen : takeIf (.mark .leftParen) state = .ok (found, middle))
    (hskip : (if found then skipToParen else skipInteger) middle = .ok (done, after)) :
    WordStands state.rest after.rest ∧ after.next = state.next := by
  cases found with
  | true =>
    obtain ⟨⟨_, opening⟩, hrest, rfl⟩ := exists_of_takeIf_eq_true hparen
    change skipToParen middle = .ok (done, after) at hskip
    refine ⟨?_, (quiet_of_follows Bounded.follows_skipToParen _ _ _ hskip).trans
      (quiet_takeIf _ _ _ _ hparen)⟩
    rw [skipToParen] at hskip
    split at hskip
    · next left hleft =>
      cases hskip
      obtain ⟨inner, ⟨_, closing⟩, hmiddle, rfl, hnil⟩ := exists_of_afterParens hleft
      have htaken : state.rest =
          (⟨.mark .leftParen, opening⟩ :: (inner ++ [⟨.mark .rightParen, closing⟩])) ++ left := by
        rw [hrest, hmiddle]
        simp
      rw [htaken]
      exact .arguments ⟨hnil⟩
    · cases hskip
  | false =>
    obtain ⟨rfl, hnot⟩ := of_takeIf_eq_false hparen
    change skipInteger middle = .ok (done, after) at hskip
    refine ⟨?_, quiet_of_follows Bounded.follows_skipInteger _ _ _ hskip⟩
    obtain ⟨token?, _, hpeek, hgiven⟩ := ok_bind hskip
    obtain ⟨hfirst, rfl⟩ := eq_of_peek? hpeek
    split at hgiven
    · cases hgiven
      obtain ⟨span, hspan⟩ := exists_eq_cons hfirst
      rw [hspan]
      exact .number
    · next hother =>
      cases hgiven
      exact .alone hnot fun n hsome => hother n (hfirst.symm.trans hsome)

/-- One turn of reading what stands between parameters and body finds its end or reads an entry. -/
theorem cases_of_readSuffixEntry {before : Suffix} {next : Suffix ⊕ Suffix}
    (h : readSuffixEntry before state = .ok (next, after)) :
    (opensSuffix (next? state.rest) = false ∧ next = .inr before ∧ after = state) ∨
    ∃ first own all, EntryStands state.rest (first.map Prod.fst) own after.rest ∧
      next = .inl all ∧ all.groups = before.groups ++ first ∧
      all.attributes = before.attributes ++ own ∧ after.next = state.next := by
  obtain ⟨token?, _, hpeek, hentry⟩ := ok_bind h
  obtain ⟨hfirst, rfl⟩ := eq_of_peek? hpeek
  split at hentry
  · next number =>
    cases hentry
    obtain ⟨span, hspan⟩ := exists_eq_cons hfirst
    rw [hspan]
    exact .inr ⟨[(number, _)], [], _, .group, rfl, rfl, (List.append_nil _).symm, rfl⟩
  · obtain ⟨attr, _, hattr, hgiven⟩ := ok_bind hentry
    cases hgiven
    exact .inr ⟨[], [attr], _, .quoted (Attribute.stands_of_readQuoted hattr), rfl,
      (List.append_nil _).symm, rfl, quiet_of_follows Bounded.follows_readQuoted _ _ _ hattr⟩
  · next word =>
    obtain ⟨_, advanced, hadvance, hword⟩ := ok_bind hentry
    cases hadvance
    obtain ⟨span, hspan⟩ := exists_eq_cons hfirst
    rw [hspan]
    obtain ⟨found, middle, hparen, htaken⟩ := ok_bind hword
    have hskip : ∃ done, (if found then skipToParen else skipInteger) middle = .ok (done, after) ∧
        next = .inl before := by
      cases found with
      | true =>
        obtain ⟨done, _, hskip, hgiven⟩ := ok_bind htaken
        cases hgiven
        exact ⟨done, hskip, rfl⟩
      | false =>
        obtain ⟨done, _, hskip, hgiven⟩ := ok_bind htaken
        cases hgiven
        exact ⟨done, hskip, rfl⟩
    obtain ⟨done, hskip, rfl⟩ := hskip
    obtain ⟨hstands, hnumber⟩ := wordStands_of_skip hparen hskip
    exact .inr ⟨[], [], _, .word hstands, rfl, (List.append_nil _).symm, (List.append_nil _).symm,
      hnumber⟩
  · next name =>
    cases hentry
    obtain ⟨span, hspan⟩ := exists_eq_cons hfirst
    rw [hspan]
    exact .inr ⟨[], [], _, .metadata, rfl, (List.append_nil _).symm, (List.append_nil _).symm, rfl⟩
  · next hgroup hstring hword hmetadata =>
    cases hentry
    refine .inl ⟨?_, rfl, rfl⟩
    rw [next?, hfirst, opensSuffix.eq_def]
    split
    · next number => exact absurd rfl (hgroup number)
    · next text => exact absurd rfl (hstring text)
    · next word => exact absurd rfl (hword word)
    · next name => exact absurd rfl (hmetadata name)
    · rfl

theorem stands_of_readSuffix {suffix : Suffix} (h : readSuffix state = .ok (suffix, after)) :
    SuffixStands state.rest (suffix.groups.map Prod.fst) suffix.attributes after.rest ∧
      after.next = state.next := by
  suffices hall : ∀ before,
      loop .attributeEntry readSuffixEntry before state = .ok (suffix, after) →
      ∃ groups own, suffix.groups = before.groups ++ groups ∧
        suffix.attributes = before.attributes ++ own ∧
        SuffixStands state.rest (groups.map Prod.fst) own after.rest ∧ after.next = state.next by
    obtain ⟨groups, own, hgroups, hown, hstands⟩ := hall ⟨[], []⟩ h
    rw [hgroups, hown]
    exact hstands
  intro before hloop
  refine induction_of_loop (motive := fun before state suffix after =>
    ∃ groups own, suffix.groups = before.groups ++ groups ∧
      suffix.attributes = before.attributes ++ own ∧
      SuffixStands state.rest (groups.map Prod.fst) own after.rest ∧ after.next = state.next)
    ?_ ?_ hloop
  · intro before state suffix after hstep
    rcases cases_of_readSuffixEntry hstep with ⟨hnext, hall, rfl⟩ | ⟨_, _, _, _, hall, -⟩
    · cases hall
      exact ⟨[], [], (List.append_nil _).symm, (List.append_nil _).symm, .done hnext, rfl⟩
    · cases hall
  · intro before state next middle suffix after hstep hmore
    rcases cases_of_readSuffixEntry hstep with
      ⟨_, hall, -⟩ | ⟨first, own, all, hstands, hall, hfirst, hown, hnumber⟩
    · cases hall
    cases hall
    obtain ⟨groups, attributes, hgroups, hattributes, hothers, hnumber'⟩ := hmore
    refine ⟨first ++ groups, own ++ attributes, ?_, ?_, ?_, hnumber'.trans hnumber⟩
    · rw [hgroups, hfirst, List.append_assoc]
    · rw [hattributes, hown, List.append_assoc]
    · rw [List.map_append]
      exact .more hstands hothers

end Function

/-- A function as a text says it, with its own attributes only. -/
structure WrittenFunction where
  isDefinition : Bool
  function : Function
  /-- What has a name in it, in the order of the text. -/
  sites : List Site
  /-- The attribute groups that it refers to, in the order of the text. -/
  groups : List UInt32

namespace WrittenFunction

/-- The return type and the name of a function, with the words around the type. -/
def readHead : Reading (Ty × String) := do
  skipWords fun _ => true
  let ret ← Ty.read
  skipWords fun _ => true
  return (ret, ← globalName)

theorem quiet_readHead : Quiet readHead :=
  (quiet_skipWords _).bind fun _ => (quiet_of_follows Bounded.follows_readTy).bind fun _ =>
    (quiet_skipWords _).bind fun _ =>
      (quiet_of_follows Bounded.follows_globalName).bind fun _ => Quiet.pure _

/-- The keyword of a definition or of a declaration. -/
def keyword (isDefinition : Bool) : Keyword :=
  if isDefinition then .define else .declare

/-- A function stands in front of some tokens. -/
inductive Stands : List PlacedToken → WrittenFunction → List PlacedToken → Prop where
  | mk {isDefinition : Bool} {head parameters suffix body left : List PlacedToken} {span : Span}
      {ret : Ty} {name : String} {params : List Param} {blocks : List Block}
      {attributes : List Attribute} {groups : List UInt32} {sites others : List Site}
      (hhead : Leaves readHead head (ret, name) parameters)
      (hparams : Function.ParamsStand isDefinition parameters params sites suffix)
      (hsuffix : Function.SuffixStands suffix groups attributes body)
      (hbody : Function.BodyStands isDefinition body blocks others left) :
      Stands (⟨.keyword (keyword isDefinition), span⟩ :: head)
        ⟨isDefinition, { name, ret, params, blocks, attributes }, sites ++ others, groups⟩ left

theorem Stands.names {tokens left : List PlacedToken} {written : WrittenFunction}
    (h : Stands tokens written left) : written.sites.map Site.name = written.function.names := by
  cases h with
  | mk hhead hparams hsuffix hbody =>
    rw [Function.names, List.map_append, hparams.names, hbody.names]

theorem keyword_of_readFunctionKeyword {isDefinition : Bool}
    (h : Function.readFunctionKeyword state = .ok (isDefinition, after)) :
    ∃ span, state.rest = ⟨.keyword (keyword isDefinition), span⟩ :: after.rest := by
  obtain ⟨found, middle, hdefine, hrest⟩ := ok_bind h
  cases found with
  | true =>
    cases hrest
    obtain ⟨⟨_, span⟩, hstate, rfl⟩ := exists_of_takeIf_eq_true hdefine
    exact ⟨span, hstate⟩
  | false =>
    obtain ⟨rfl, -⟩ := of_takeIf_eq_false hdefine
    obtain ⟨found, last, hdeclare, hlast⟩ := ok_bind hrest
    cases found with
    | true =>
      cases hlast
      obtain ⟨⟨_, span⟩, hstate, rfl⟩ := exists_of_takeIf_eq_true hdeclare
      exact ⟨span, hstate⟩
    | false => exact absurd hlast (ne_ok_of_gives fun _ => gives_unexpected _)

/-- A function is read with the numbers given to what has no name in it from 0 on. -/
theorem stands_of_read {entry : Function × List (UInt32 × Place)}
    (h : Function.read state = .ok (entry, after)) :
    ∃ isDefinition sites number,
      Stands state.rest ⟨isDefinition, entry.1, sites, entry.2.map Prod.fst⟩ after.rest ∧
        Numbered 0 sites number := by
  obtain ⟨isDefinition, first, hkeyword, h⟩ := ok_bind h
  obtain ⟨_, restarted, hrestart, h⟩ := ok_bind h
  obtain ⟨_, skipped, hwords, h⟩ := ok_bind h
  obtain ⟨ret, typed, hret, h⟩ := ok_bind h
  obtain ⟨_, named, hwords', h⟩ := ok_bind h
  obtain ⟨name, head, hname, h⟩ := ok_bind h
  obtain ⟨params, listed, hparams, h⟩ := ok_bind h
  obtain ⟨suffix, closed, hsuffix, h⟩ := ok_bind h
  obtain ⟨blocks, last, hblocks, h⟩ := ok_bind h
  cases h
  cases hrestart
  have hhead : readHead { first with next := 0 } = .ok ((ret, name), head) :=
    (bind_of_ok hwords).trans <| (bind_of_ok hret).trans <| (bind_of_ok hwords').trans <|
      bind_of_ok hname
  obtain ⟨span, hrest⟩ := keyword_of_readFunctionKeyword hkeyword
  obtain ⟨sites, hstands, hnumbered⟩ := Function.stands_of_parenthesized hparams
  obtain ⟨hbetween, hnumber⟩ := Function.stands_of_readSuffix hsuffix
  obtain ⟨others, hbody, hnumbered'⟩ := Function.stands_of_readBody hblocks
  rw [quiet_readHead _ _ _ hhead] at hnumbered
  rw [hnumber] at hnumbered'
  rw [hrest]
  exact ⟨isDefinition, sites ++ others, _, .mk ⟨0, head.next, hhead⟩ hstands hbetween hbody,
    hnumbered.append hnumbered'⟩

end WrittenFunction

end QuantumIR
