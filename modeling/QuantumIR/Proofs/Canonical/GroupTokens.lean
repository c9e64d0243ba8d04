import QuantumIR.Proofs.Canonical.ModuleTokens
import QuantumIR.Reading.Module

/-!
The tokens of attribute groups with their places. A keyword attribute is read back from the
source text between its first and its last token, so it matters where these stand: exactly
where the attribute was written.
-/

namespace QuantumIR

open Lexeme Text

namespace Lexeme

/-- A token with its place, as a piece of a text. -/
def ofPlaced (placed : PlacedToken) : Lexeme := .token placed.token placed.span

theorem ofPlaced_injective : Function.Injective ofPlaced := by
  rintro ⟨token, span⟩ ⟨token', span'⟩ h
  cases h
  rfl

theorem token?_ofPlaced (placed : PlacedToken) :
    (ofPlaced placed).token? = some placed.token := rfl

theorem placeTokens_map (placed : List PlacedToken) :
    Module.placeTokens (placed.map ofPlaced) = .ok placed := by
  induction placed with
  | nil => rfl
  | cons first rest ih =>
    rw [List.map_cons, ofPlaced, Module.placeTokens, ih]
    rfl

/-- Pieces that all are tokens. -/
theorem exists_placed {lexemes : List Lexeme} {tokens : List Token}
    (h : lexemes.map token? = tokens.map some) :
    ∃ placed : List PlacedToken, lexemes = placed.map ofPlaced ∧
      placed.map PlacedToken.token = tokens := by
  induction lexemes generalizing tokens with
  | nil =>
    refine ⟨[], rfl, ?_⟩
    simpa using h.symm
  | cons lexeme rest ih =>
    cases tokens with
    | nil => exact absurd h (List.cons_ne_nil _ _)
    | cons token tokens =>
      rw [List.map_cons, List.map_cons, List.cons.injEq] at h
      obtain ⟨placed, hrest, htokens⟩ := ih h.2
      cases lexeme with
      | invalid text span => exact absurd h.1 (Option.some_ne_none token).symm
      | token found span =>
        have hfound : found = token := Option.some.inj h.1
        refine ⟨⟨found, span⟩ :: placed, ?_, ?_⟩
        · rw [hrest]
          rfl
        · rw [List.map_cons, htokens, hfound]

/-- The tokens of a text that stands somewhere in a longer one, with their places there. -/
def PlacedAt (source text : List Char) (placed : List PlacedToken) : Prop :=
  ∃ before after, source = before ++ text ++ after ∧
    scanFrom (byteCount before) text = placed.map ofPlaced

end Lexeme

namespace Attribute

/-- The tokens of an attribute. A keyword has the tokens that its text is cut into. -/
def tokens : Attribute → List Token
  | flag key => [.string key]
  | keyValue key value => [.string key, .mark .equals, .string value]
  | keyword word => (scan word.toList).filterMap token?

/-- Attributes with their tokens, each at the place where it is written. -/
inductive PlacedAll (source : List Char) : List Attribute → List PlacedToken → Prop where
  | nil : PlacedAll source [] []
  | cons {attr : Attribute} {attributes : List Attribute} {placed rest : List PlacedToken} :
      PlacedAt source attr.text.toList placed → PlacedAll source attributes rest →
      PlacedAll source (attr :: attributes) (placed ++ rest)

/-- Texts with blanks between them spell their tokens one after the other. -/
theorem spells_all {attributes : List Attribute}
    (h : ∀ a ∈ attributes, Spells Closed a.text.toList (a.tokens.map some)) :
    Spells Closed (" ".intercalate (attributes.map text)).toList
      ((attributes.flatMap tokens).map some) := by
  induction attributes with
  | nil => exact Spells.nothing
  | cons a rest ih =>
    cases rest with
    | nil =>
      refine (h a List.mem_cons_self).cast ?_ ?_
      · rw [List.map_singleton, String.intercalate_singleton]
      · rw [List.flatMap_singleton]
    | cons b others =>
      have hrest := ih fun c hc => h c (List.mem_cons_of_mem a hc)
      refine ((h a List.mem_cons_self).blankThen hrest).cast ?_ ?_
      · rw [List.map_cons, List.map_cons, String.intercalate_cons_cons, String.toList_append,
          String.toList_append, List.append_assoc]
        rfl
      · rw [List.flatMap_cons, List.map_append]

/-- Attributes with blanks between them stand where they are written. -/
theorem placedAll {source before after : List Char} {attributes : List Attribute}
    (h : ∀ a ∈ attributes, Spells Closed a.text.toList (a.tokens.map some))
    (hsource : source = before ++ (" ".intercalate (attributes.map text)).toList ++ after) :
    ∃ placed, scanFrom (byteCount before) (" ".intercalate (attributes.map text)).toList =
      placed.map ofPlaced ∧ PlacedAll source attributes placed := by
  induction attributes generalizing before with
  | nil => exact ⟨[], by simp [scanFrom], PlacedAll.nil⟩
  | cons a rest ih =>
    have ha := h a List.mem_cons_self
    obtain ⟨placed, hplaced, -⟩ := exists_placed (ha.tokens (byteCount before))
    cases rest with
    | nil =>
      rw [List.map_singleton, String.intercalate_singleton] at hsource ⊢
      refine ⟨placed ++ [], ?_, PlacedAll.cons ⟨before, after, hsource, hplaced⟩ PlacedAll.nil⟩
      rw [hplaced, List.append_nil]
    | cons b others =>
      obtain ⟨others', hothers'⟩ : ∃ others', others' =
          (" ".intercalate ((b :: others).map text)).toList := ⟨_, rfl⟩
      have htext : (" ".intercalate ((a :: b :: others).map text)).toList =
          a.text.toList ++ ' ' :: others' := by
        rw [List.map_cons, List.map_cons, String.intercalate_cons_cons, String.toList_append,
          String.toList_append, List.append_assoc, hothers']
        rfl
      rw [htext] at hsource ⊢
      have hsource' : source = (before ++ a.text.toList ++ [' ']) ++ others' ++ after := by
        rw [hsource]
        simp only [List.append_assoc, List.cons_append, List.nil_append]
      rw [hothers'] at hsource'
      obtain ⟨rest, hrest, hall⟩ := ih (fun c hc => h c (List.mem_cons_of_mem a hc)) hsource'
      refine ⟨placed ++ rest, ?_, PlacedAll.cons ⟨before, ' ' :: others' ++ after, ?_, hplaced⟩
        hall⟩
      · rw [ha.split _ _ (closed_cons.mpr rfl), hplaced, List.map_append, ← hrest, ← hothers',
          scanFrom, if_pos (by decide), byteCount_append, byteCount_append]
        rfl
      · rw [hsource]
        simp only [List.append_assoc]

end Attribute

namespace Module

/-- The tokens of the line of an attribute group. -/
def groupLineTokens (entry : List Attribute × Nat) : List (Option Token) :=
  some (.keyword .attributes) :: groupToken entry.2 :: some (.mark .equals) ::
    some (.mark .leftBrace) ::
      ((entry.1.flatMap Attribute.tokens).map some ++ [some (.mark .rightBrace)])

/-- What stands before the attributes in the line of a group. -/
theorem spells_groupOpening (number : Nat) :
    Spells Anything ("attributes #" ++ toString number ++ " = \x7b ").toList
      [some (.keyword .attributes), groupToken number, some (.mark .equals),
        some (.mark .leftBrace)] := by
  have hbrace : Spells Anything ('=' :: ' ' :: '\x7b' :: [' '])
      [some (.mark .equals), some (.mark .leftBrace)] :=
    (Spells.mark '=' rfl).then (Spells.blank.then ((Spells.mark '\x7b' rfl).then Spells.blank))
  refine ((Spells.keyword .attributes).blankThen ((Spells.group number).blankThen hbrace)).cast ?_
    rfl
  simp only [Keyword.text, String.toList_append, String.reduceToList, List.cons_append,
    List.nil_append]

theorem spells_groupLine {entry : List Attribute × Nat}
    (h : ∀ a ∈ entry.1, Spells Closed a.text.toList (a.tokens.map some)) :
    Spells Anything (groupLine entry).toList (groupLineTokens entry) := by
  have hclosing := (Attribute.spells_all h).blankThen (Spells.mark '\x7d' rfl)
  refine ((spells_groupOpening entry.2).then hclosing).cast ?_ ?_
  · simp only [groupLine, String.toList_append, String.reduceToList, List.append_assoc,
      List.cons_append, List.nil_append]
  · simp only [groupLineTokens, List.cons_append, List.nil_append]

/-- The tokens of the line of a group, with each attribute at the place where it is written. -/
def PlacedGroup (source : List Char) (entry : List Attribute × Nat)
    (placed : List PlacedToken) : Prop :=
  ∃ opening attributes closing, placed = opening ++ attributes ++ [closing] ∧
    opening.map PlacedToken.token = [.keyword .attributes, .attrGroup (UInt32.ofNat entry.2),
      .mark .equals, .mark .leftBrace] ∧
    Attribute.PlacedAll source entry.1 attributes ∧ closing.token = .mark .rightBrace

theorem placedGroup {source before after : List Char} {entry : List Attribute × Nat}
    (h : ∀ a ∈ entry.1, Spells Closed a.text.toList (a.tokens.map some))
    (hnumber : entry.2 < UInt32.size)
    (hsource : source = before ++ (groupLine entry).toList ++ after) :
    ∃ placed, scanFrom (byteCount before) (groupLine entry).toList = placed.map ofPlaced ∧
      PlacedGroup source entry placed := by
  obtain ⟨opening, hopening⟩ : ∃ opening, opening =
      ("attributes #" ++ toString entry.2 ++ " = \x7b ").toList := ⟨_, rfl⟩
  obtain ⟨body, hbody⟩ : ∃ body, body = (" ".intercalate (entry.1.map Attribute.text)).toList :=
    ⟨_, rfl⟩
  have hline : (groupLine entry).toList = opening ++ (body ++ [' ', '\x7d']) := by
    simp only [groupLine, hopening, hbody, String.toList_append, String.reduceToList,
      List.append_assoc, List.cons_append, List.nil_append]
  have hspells := spells_groupOpening entry.2
  rw [← hopening] at hspells
  have hclosing : Spells Anything [' ', '\x7d'] [some (.mark .rightBrace)] :=
    Spells.blank.then (Spells.mark '\x7d' rfl)
  rw [hline] at hsource ⊢
  have hsource' : source = (before ++ opening) ++ body ++ ([' ', '\x7d'] ++ after) := by
    rw [hsource]
    simp only [List.append_assoc]
  rw [hbody] at hsource'
  obtain ⟨attributes, hattributes, hall⟩ := Attribute.placedAll h hsource'
  have htokens := hspells.tokens (byteCount before)
  rw [groupToken_of_lt hnumber] at htokens
  obtain ⟨first, hfirst, hfirstTokens⟩ : ∃ first : List PlacedToken,
      scanFrom (byteCount before) opening = first.map ofPlaced ∧
        first.map PlacedToken.token = [.keyword .attributes,
          .attrGroup (UInt32.ofNat entry.2), .mark .equals, .mark .leftBrace] :=
    exists_placed htokens
  obtain ⟨last, hlast, hlastTokens⟩ : ∃ last : List PlacedToken,
      scanFrom (byteCount (before ++ opening) + byteCount body) [' ', '\x7d'] =
          last.map ofPlaced ∧ last.map PlacedToken.token = [.mark .rightBrace] :=
    exists_placed (hclosing.tokens _)
  obtain ⟨closing, rfl, hclosingToken⟩ := List.map_eq_singleton_iff.mp hlastTokens
  refine ⟨first ++ attributes ++ [closing], ?_, first, attributes, closing, rfl, hfirstTokens, hall,
    hclosingToken⟩
  have hbodySpells := Attribute.spells_all h
  rw [← hbody] at hbodySpells hattributes
  rw [hspells.split _ _ trivial, hbodySpells.split _ _ (closed_cons.mpr rfl),
    ← byteCount_append, hattributes, hfirst, hlast]
  simp only [List.map_append, List.append_assoc]

/-- The tokens of the lines of groups, line after line. -/
inductive PlacedGroups (source : List Char) :
    List (List Attribute × Nat) → List PlacedToken → Prop where
  | nil : PlacedGroups source [] []
  | cons {entry : List Attribute × Nat} {entries : List (List Attribute × Nat)}
      {placed rest : List PlacedToken} :
      PlacedGroup source entry placed → PlacedGroups source entries rest →
      PlacedGroups source (entry :: entries) (placed ++ rest)

theorem placedGroups {source before after : List Char} {entries : List (List Attribute × Nat)}
    (h : ∀ entry ∈ entries, ∀ a ∈ entry.1, Spells Closed a.text.toList (a.tokens.map some))
    (hnumber : ∀ entry ∈ entries, entry.2 < UInt32.size)
    (hsource : source = before ++
      entries.flatMap (fun entry => (groupLine entry).toList ++ ['\n']) ++ after) :
    ∃ placed, scanFrom (byteCount before)
        (entries.flatMap fun entry => (groupLine entry).toList ++ ['\n']) = placed.map ofPlaced ∧
      PlacedGroups source entries placed := by
  induction entries generalizing before with
  | nil => exact ⟨[], by simp [scanFrom], PlacedGroups.nil⟩
  | cons entry rest ih =>
    obtain ⟨line, hline⟩ : ∃ line, line = (groupLine entry).toList := ⟨_, rfl⟩
    obtain ⟨others, hothers⟩ : ∃ others, others =
        rest.flatMap fun entry => (groupLine entry).toList ++ ['\n'] := ⟨_, rfl⟩
    have hspells := spells_groupLine (h entry List.mem_cons_self)
    rw [List.flatMap_cons, ← hothers] at hsource ⊢
    have hfirst : source = before ++ (groupLine entry).toList ++ ('\n' :: others ++ after) := by
      rw [hsource]
      simp only [List.append_assoc, List.cons_append, List.nil_append]
    have hsecond : source = (before ++ line ++ ['\n']) ++ others ++ after := by
      rw [hsource, hline]
      simp only [List.append_assoc, List.cons_append, List.nil_append]
    rw [hothers] at hsecond
    obtain ⟨placed, hplaced, hgroup⟩ :=
      placedGroup (h entry List.mem_cons_self) (hnumber entry List.mem_cons_self) hfirst
    obtain ⟨more, hmore, hgroups⟩ := ih (fun e he => h e (List.mem_cons_of_mem entry he))
      (fun e he => hnumber e (List.mem_cons_of_mem entry he)) hsecond
    refine ⟨placed ++ more, ?_, PlacedGroups.cons hgroup hgroups⟩
    rw [List.append_assoc, hspells.split _ _ trivial, hplaced, List.map_append, ← hmore, ← hothers,
      List.singleton_append, scanFrom, if_pos (by decide), byteCount_append, byteCount_append,
      ← hline]
    rfl

end Module

end QuantumIR
