import QuantumIR.Proofs.Bounded.Functions
import QuantumIR.Reading.Module

/-!
The bounded reading of modules follows the reading of them. What the bounded reading gives holds
keyword attributes as places of tokens, and the text between those places is what the reading gives.
Each entity gains the turns that the look-up of its attribute groups takes later.
-/

namespace QuantumIR.Bounded

variable {α β : Type} {page : Page} {cursor : Cursor} {number credit : Nat} {text : List Char}
  {result : α → Nat → β → Cursor → Prop}

theorem follows_readSource (hc : Has page credit cursor) :
    Follows page cursor number Module.readSource readSource (Same page number (credit + 2)) := by
  apply (follows_expect hc).andThen
  intro _ cursor hc
  apply (follows_expect hc).andThen
  intro _ cursor hc
  exact (follows_stringLiteral hc).same (by omega)

theorem follows_readTargetLine (hc : Has page credit cursor) :
    Follows page cursor number Module.readTarget readTargetLine
      (Same page number (credit + 2)) := by
  apply (follows_expect hc).andThen
  intro _ cursor hc
  apply Follows.takeEither hc
  intro cursor hc
  apply (follows_expect hc).andThen
  intro _ cursor hc
  apply (follows_stringLiteral hc).andThen
  intro _ cursor hc
  exact Follows.pure ⟨rfl, rfl, hc.mono (by omega)⟩

theorem follows_readOpaqueType (hc : Has page credit cursor) :
    Follows page cursor number Module.readOpaqueType readOpaqueType
      (Same page number (credit + 2)) := by
  apply (follows_localName hc).andThen
  intro name cursor hc
  apply (follows_expect hc).andThen
  intro _ cursor hc
  apply (follows_expect hc).andThen
  intro _ cursor hc
  apply Follows.ifTake hc
  · intro _ cursor hc
    exact Follows.pure ⟨rfl, rfl, hc.mono (by omega)⟩
  · intro _
    exact follows_unsupported _

theorem follows_skipAlignments (hc : Has page (credit + 1) cursor) :
    Follows page cursor number Module.skipAlignments skipAlignments (Same page number credit) := by
  refine Follows.loopSame ?_ hc
  intro credit _ cursor hc
  apply Follows.ifTake hc
  · intro _ cursor hc
    apply Follows.unlessTake hc
    · intro _
      exact (follows_unexpected _).stop
    · intro _ cursor hc
      apply (follows_integer hc).andThen
      intro _ cursor hc
      exact Follows.pure ⟨rfl, rfl, hc.mono (by omega)⟩
  · intro _
    exact Follows.pure ⟨rfl, rfl, hc⟩

theorem follows_readBytes {length : UInt64} (hc : Has page credit cursor) :
    Follows page cursor number (Module.readBytes length) (readBytes length)
      (Same page number (credit + 2)) := by
  apply Follows.peek?
  intro token? htoken
  cases token? with
  | none => exact follows_unsupported _
  | some token =>
    cases token with
    | bytes bytes =>
      apply Follows.ite
      · intro _
        exact (follows_unsupported _).stop
      · intro _
        apply (follows_advance htoken hc).andThen
        intro _ cursor hc
        exact Follows.pure ⟨rfl, rfl, hc⟩
    | _ => exact follows_unsupported _

theorem stringLength?_eq_none {ty : Ty} (h : ∀ length, ty = .array length (.int 8) → False) :
    stringLength? ty = none := by
  rw [stringLength?.eq_def]
  split
  · next length => exact (h length rfl).elim
  · rfl

theorem follows_readGlobal (hc : Has page credit cursor) :
    Follows page cursor number Module.readGlobal readGlobal (Same page number (credit + 2)) := by
  apply (follows_globalName hc).andThen
  intro name cursor hc
  apply (follows_expect hc).andThen
  intro _ cursor hc
  apply (follows_skipWords hc).andThen
  intro _ cursor hc
  apply Follows.takeEither hc
  intro cursor hc
  apply Follows.here
  apply (follows_readTy hc).andThen
  intro ty cursor hc
  split
  · next length =>
    apply (follows_readBytes hc).andThen
    intro bytes cursor hc
    apply (follows_skipAlignments hc).andThen
    intro _ cursor hc
    exact Follows.pure ⟨rfl, rfl, hc.mono (by omega)⟩
  · next hother =>
    rw [stringLength?_eq_none hother]
    exact follows_failAt rfl (by nofun)

/-- An attribute as it is written in a text. -/
def Entry.attribute (text : List Char) (placed : List PlacedToken) : Entry → Attribute
  | .quoted attr => attr
  | .keyword first last =>
    let start := (placed[first]?.map fun token => token.span.start).getD 0
    let stop := (placed[last]?.map fun token => token.span.stop).getD 0
    .keyword (Source.slice text ⟨start, stop⟩)

/-- An attribute has its tokens after one place and before another one. -/
def Entry.Between (start stop : Nat) : Entry → Prop
  | .quoted _ => True
  | .keyword first last => start ≤ first ∧ first ≤ last ∧ last < stop

/-- Only the reading asks for all that is left. -/
theorem Follows.rest {next : List PlacedToken → Reading α} {bounded : Bounded β}
    (h : Follows page cursor number (next (page.placed.drop cursor.place)) bounded result) :
    Follows page cursor number (Reading.rest >>= next) bounded result :=
  h

/-- Only the bounded reading asks for the place. -/
theorem Follows.herePlace {step : Reading α} {after : Nat → Bounded β}
    (h : Follows page cursor number step (after cursor.place) result) :
    Follows page cursor number step (Bounded.here >>= after) result :=
  h

theorem Follows.sliceFrom {step : Reading α} {after : Nat × Nat → Bounded β} {first : Nat}
    (hfirst : first < cursor.place) (hc : Has page credit cursor)
    (h : Follows page cursor number step (after (first, cursor.place - 1)) result) :
    Follows page cursor number step (Bounded.sliceFrom first >>= after) result := by
  rw [Bounded.sliceFrom, bind_assoc]
  apply Follows.previous (Nat.zero_lt_of_lt hfirst)
  have hplace := hc.1
  have hslice : page.canSlice first (cursor.place - 1) :=
    page.slices first (cursor.place - 1) (by omega) (by omega)
  have hall : first < page.row.tokens.length ∧ cursor.place - 1 < page.row.tokens.length ∧
      page.row.canSlice first (cursor.place - 1) := by
    rw [page.length_tokens]
    exact ⟨by omega, by omega, hslice⟩
  unfold Follows at h ⊢
  change Agree page cursor result _ (Except.bind
    (if first < page.row.tokens.length ∧ cursor.place - 1 < page.row.tokens.length ∧
      page.row.canSlice first (cursor.place - 1) then .ok ((first, cursor.place - 1), cursor)
      else .error .outOfBounds) fun p => after p.1 page.row p.2)
  rw [if_pos hall]
  exact h

theorem follows_skipKeyword {token : Token} (htoken : page.token? cursor.place = some token)
    (hc : Has page credit cursor) :
    Follows page cursor number Module.skipKeyword skipKeyword
      fun a number' b cursor' => cursor.place < cursor'.place ∧
        Same page number (credit + 2) a number' b cursor' := by
  apply (follows_advance_place htoken hc).bind
  rintro _ number _ cursor₁ ⟨hplace, -, rfl, hc₁⟩
  suffices h : Follows page cursor₁ number _ _ (Same page number (credit + 2)) from
    h.impLe fun _ _ _ _ hle hsame => ⟨by omega, hsame⟩
  apply Follows.ifTake hc₁
  · intro _ cursor hc
    exact (follows_skipToParen hc).same (by omega)
  intro _
  apply Follows.ifTake hc₁
  · intro _ cursor hc
    cases hnext : page.token? cursor.place with
    | none => exact (follows_advance_end hnext hc).same (by omega)
    | some token => exact (follows_advance hnext hc).same (by omega)
  · intro _
    exact Follows.pure ⟨rfl, rfl, hc₁⟩

/-- The tokens between two places stop where the last of them does. -/
theorem stopOfTaken_drop {placed : List PlacedToken} {start stop : Nat} (h : start < stop)
    (hstop : stop ≤ placed.length) :
    Reading.stopOfTaken (placed.drop start) (placed.drop stop) =
      (placed[stop - 1]?.map fun token => token.span.stop).getD 0 := by
  have hcount : (placed.drop start).length - (placed.drop stop).length = stop - start := by
    rw [List.length_drop, List.length_drop]
    omega
  have hlast : ((placed.drop start).take (stop - start)).getLast? = placed[stop - 1]? := by
    rw [List.getLast?_eq_getElem?, List.length_take, List.length_drop, List.getElem?_take_of_lt,
      List.getElem?_drop]
    · congr 1
      omega
    · omega
  rw [Reading.stopOfTaken, hcount, hlast]

theorem follows_readKeyword {token : Token} (htoken : page.token? cursor.place = some token)
    (hc : Has page credit cursor) :
    Follows page cursor number (Module.readKeyword text) readKeyword
      fun attr number' entry cursor' => attr = entry.attribute text page.placed ∧
        number' = number ∧ entry.Between cursor.place cursor'.place ∧
        Has page (credit + 2) cursor' := by
  apply Follows.rest
  apply Follows.herePlace
  apply (follows_skipKeyword htoken hc).bind
  rintro _ _ _ cursor' ⟨hplace, -, rfl, hc'⟩
  apply Follows.rest
  apply Follows.sliceFrom hplace hc'
  refine Follows.pure ⟨?_, rfl, ⟨Nat.le_refl _, by omega, by omega⟩, hc'⟩
  rw [Entry.attribute, stopOfTaken_drop hplace hc'.1, List.head?_drop]

/-- The attributes of a group up to some place. -/
def EntriesAs (text : List Char) (page : Page) (start place : Nat) (attributes : List Attribute)
    (entries : List Entry) : Prop :=
  attributes = entries.map (Entry.attribute text page.placed) ∧
    ∀ entry ∈ entries, entry.Between start place

theorem Entry.Between.mono {start stop stop' : Nat} {entry : Entry} (h : entry.Between start stop)
    (hle : stop ≤ stop') : entry.Between start stop' := by
  cases entry with
  | quoted attr => trivial
  | keyword first last => exact ⟨h.1, h.2.1, h.2.2.trans_le hle⟩

/-- One more attribute that starts where the others end. -/
theorem EntriesAs.append {start place place' : Nat} {attributes : List Attribute}
    {entries : List Entry} (h : EntriesAs text page start place attributes entries)
    (hstart : start ≤ place) (hplace : place ≤ place') {attr : Attribute} {entry : Entry}
    (hattr : attr = entry.attribute text page.placed) (hentry : entry.Between place place') :
    EntriesAs text page start place' (attributes ++ [attr]) (entries ++ [entry]) := by
  refine ⟨?_, ?_⟩
  · rw [h.1, hattr, List.map_append, List.map_singleton]
  · intro other hother
    rcases List.mem_append.mp hother with hother | hother
    · exact (h.2 other hother).mono hplace
    · rw [List.mem_singleton.mp hother]
      cases entry with
      | quoted attr => trivial
      | keyword first last => exact ⟨hstart.trans hentry.1, hentry.2⟩

theorem follows_readEntry {start : Nat} {attributes : List Attribute} {entries : List Entry}
    (hstart : start ≤ cursor.place)
    (hentries : EntriesAs text page start cursor.place attributes entries)
    (hc : Has page credit cursor) :
    Follows page cursor number (Module.readAttribute text attributes) (readEntry entries)
      (Onward page (fun place attributes number' entries => start ≤ place ∧ number' = number ∧
          EntriesAs text page start place attributes entries) (fun _ => 0)
        (fun credit attributes number' entries cursor => start < cursor.place ∧ number' = number ∧
          EntriesAs text page start (cursor.place - 1) attributes entries ∧
          Has page (credit + 2) cursor) credit attributes) := by
  apply Follows.peek?
  intro token? htoken
  cases token? with
  | none => exact follows_unexpected _
  | some token =>
    cases token with
    | mark mark =>
      cases mark with
      | rightBrace =>
        apply (follows_advance_place htoken hc).bind
        rintro _ number _ cursor' ⟨hplace, -, rfl, hc'⟩
        refine Follows.pure ⟨by omega, rfl, ?_, hc'⟩
        rw [hplace, Nat.add_sub_cancel]
        exact hentries
      | _ => exact follows_unexpected _
    | string key =>
      apply (follows_readQuoted hc).bindLe
      rintro attr number _ cursor' hplace - ⟨rfl, rfl, hc'⟩
      exact Follows.pure ⟨⟨hstart.trans hplace, rfl, hentries.append hstart hplace rfl trivial⟩,
        Nat.le_refl _, hc'.mono (Nat.le_succ _)⟩
    | word word =>
      apply (follows_readKeyword htoken hc).bindLe
      rintro attr number entry cursor' hplace - ⟨hattr, rfl, hentry, hc'⟩
      exact Follows.pure ⟨⟨hstart.trans hplace, rfl, hentries.append hstart hplace hattr hentry⟩,
        Nat.le_refl _, hc'.mono (Nat.le_succ _)⟩
    | _ => exact follows_unexpected _

/-- A group with its attributes as they are written in a text. -/
def Group.written (text : List Char) (placed : List PlacedToken) (group : Group) :
    UInt32 × List Attribute :=
  (group.number, group.entries.map (Entry.attribute text placed))

/-- The attributes of a group have their tokens between its first and its last one. -/
def Group.Encloses (group : Group) : Prop :=
  ∀ entry ∈ group.entries, entry.Between group.first (group.last + 1)

theorem follows_readGroup (hc : Has page credit cursor) :
    Follows page cursor number (Module.readGroup text) readGroup
      fun written number' group cursor' => written = group.written text page.placed ∧
        group.Encloses ∧ number' = number ∧ Has page (credit + 2) cursor' := by
  apply (follows_expect hc).bind
  rintro _ number _ cursor₁ ⟨-, rfl, hc₁⟩
  apply Follows.peek?
  intro token? htoken
  cases token? with
  | none => exact follows_unexpected _
  | some token =>
    cases token with
    | attrGroup group =>
      apply (follows_advance htoken hc₁).bind
      rintro _ number _ cursor₂ ⟨-, rfl, hc₂⟩
      apply (follows_expect hc₂).bind
      rintro _ number _ cursor₃ ⟨-, rfl, hc₃⟩
      apply Follows.herePlace
      generalize hfirst : cursor₃.place = first
      apply (follows_expect hc₃).bindLe
      rintro _ number _ cursor₄ hle₄ - ⟨-, rfl, hc₄⟩
      have hentries : Follows page cursor₄ number (Module.readAttributes text)
          (loop readEntry []) fun attributes number' entries cursor => first < cursor.place ∧
            number' = number ∧ EntriesAs text page first (cursor.place - 1) attributes entries ∧
            Has page (credit + 7 + 2) cursor := by
        refine Follows.loop (fun place attributes number' entries => first ≤ place ∧
            number' = number ∧ EntriesAs text page first place attributes entries)
          (fun _ => 0) (fun credit attributes number' entries cursor =>
            first < cursor.place ∧ number' = number ∧
            EntriesAs text page first (cursor.place - 1) attributes entries ∧
            Has page (credit + 2) cursor) ?_ ⟨by omega, rfl, rfl, by simp⟩ hc₄
        rintro credit attributes entries cursor number ⟨hstart, rfl, hentries⟩ hc
        exact follows_readEntry hstart hentries hc
      apply hentries.bind
      rintro attributes number entries cursor ⟨hlt, rfl, hentries, hc⟩
      apply Follows.previous (Nat.zero_lt_of_lt hlt)
      refine Follows.pure ⟨?_, ?_, rfl, hc.mono (by omega)⟩
      · rw [Group.written, hentries.1]
      · intro entry hentry
        exact (hentries.2 entry hentry).mono (Nat.le_succ _)
    | _ => exact follows_unexpected _

/-- What has been read of a module so far, as it is written in a text. -/
def Draft.written (text : List Char) (page : Page) (draft : Draft) : Module.Draft where
  source := draft.source
  opaqueTypes := draft.opaqueTypes
  globals := draft.globals
  functions := draft.functions.map fun entry => (entry.1, page.refs entry.2)
  groups := draft.groups.map (Group.written text page.placed)

/-- The same has been read of a module so far. -/
def DraftAs (text : List Char) (page : Page) (draft : Module.Draft) (draft' : Draft) : Prop :=
  draft = draft'.written text page ∧ ∀ group ∈ draft'.groups, group.Encloses

/-- The turns that the look-up of the attributes takes: one for each function and for each reference
to a group. -/
def owed (functions : List (Function × List (UInt32 × Place))) : Nat :=
  (functions.map fun entry => entry.2.length + 1).sum

theorem owed_append (functions : List (Function × List (UInt32 × Place)))
    (entry : Function × List (UInt32 × Place)) :
    owed (functions ++ [entry]) = owed functions + (entry.2.length + 1) := by
  rw [owed, owed, List.map_append, List.sum_append, List.map_singleton, List.sum_singleton]

/-- An entity that adds no function gains the turn for the next one. -/
def EntityAs (text : List Char) (page : Page) (credit : Nat) (draft : Module.Draft) (_ : Nat)
    (draft' : Draft) (cursor : Cursor) : Prop :=
  DraftAs text page draft draft' ∧ Has page (credit + owed draft.functions + 1) cursor

theorem follows_readEntity {draft : Module.Draft} {draft' : Draft}
    (hdraft : DraftAs text page draft draft')
    (hc : Has page (credit + owed draft.functions) cursor) :
    Follows page cursor number (Module.readEntity text draft) (readEntity draft')
      fun after number' after' cursor' => owed draft.functions ≤ owed after.functions ∧
        EntityAs text page credit after number' after' cursor' := by
  obtain ⟨rfl, hencloses⟩ := hdraft
  apply Follows.here
  apply Follows.peek?
  intro token? htoken
  cases token? with
  | none => exact follows_unexpected _
  | some token =>
    cases token with
    | keyword word =>
      have hfunction : Follows page cursor number
          (Function.read >>= fun entry => pure { draft'.written text page with
            functions := (draft'.written text page).functions ++ [entry] })
          (readFunction >>= fun entry => pure { draft' with
            functions := draft'.functions ++ [entry] })
          fun after number' after' cursor' =>
            owed (draft'.written text page).functions ≤ owed after.functions ∧
              EntityAs text page credit after number' after' cursor' := by
        apply (follows_readFunction hc).bind
        rintro entry number entry' cursor' ⟨hentry, hc'⟩
        refine Follows.pure ⟨?_, ⟨?_, hencloses⟩, ?_⟩
        · simp only [owed_append]
          omega
        · simp [Draft.written, hentry]
        · simp only [owed_append]
          exact hc'.mono (by omega)
      cases word with
      | sourceFilename =>
        apply (follows_readSource hc).andThen
        intro name cursor hc
        exact Follows.pure ⟨Nat.le_refl _, ⟨rfl, hencloses⟩, hc.mono (Nat.le_succ _)⟩
      | target =>
        apply (follows_readTargetLine hc).andThen
        intro _ cursor hc
        exact Follows.pure ⟨Nat.le_refl _, ⟨rfl, hencloses⟩, hc.mono (Nat.le_succ _)⟩
      | declare => exact hfunction
      | define => exact hfunction
      | attributes =>
        apply (follows_readGroup hc).bind
        rintro _ number group cursor' ⟨rfl, hgroup, rfl, hc'⟩
        apply Follows.iteIff
        · rw [Draft.written, List.any_map]
          rfl
        · intro _
          exact (follows_failAt rfl (by nofun)).stop
        · intro _
          refine Follows.pure ⟨Nat.le_refl _, ⟨?_, ?_⟩, hc'.mono (Nat.le_succ _)⟩
          · simp only [Draft.written, List.map_append, List.map_singleton]
          · intro other hother
            rcases List.mem_append.mp hother with hother | hother
            · exact hencloses other hother
            · exact List.mem_singleton.mp hother ▸ hgroup
      | _ => exact follows_unexpected _
    | localName name =>
      apply (follows_readOpaqueType hc).andThen
      intro name cursor hc
      exact Follows.pure ⟨Nat.le_refl _, ⟨rfl, hencloses⟩, hc.mono (Nat.le_succ _)⟩
    | globalName name =>
      apply (follows_readGlobal hc).andThen
      intro global cursor hc
      apply Follows.ite
      · intro _
        exact (follows_failAt rfl (by nofun)).stop
      · intro _
        exact Follows.pure ⟨Nat.le_refl _, ⟨rfl, hencloses⟩, hc.mono (Nat.le_succ _)⟩
    | _ => exact follows_unexpected _

theorem follows_readEntities (hc : Has page (credit + 1) cursor) :
    Follows page cursor number (Module.readEntities text) readEntities
      fun draft _ draft' cursor' => DraftAs text page draft draft' ∧
        Has page (credit + owed draft.functions) cursor' := by
  refine Follows.loop (fun _ draft _ draft' => DraftAs text page draft draft')
    (fun draft => owed draft.functions)
    (fun credit draft _ draft' cursor => DraftAs text page draft draft' ∧
      Has page (credit + owed draft.functions) cursor) ?_ ⟨rfl, by simp⟩ hc
  intro credit draft draft' cursor number hdraft hc
  apply Follows.peek?
  intro token? _
  apply Follows.ite
  · intro _
    exact Follows.pure ⟨hdraft, hc⟩
  · intro _
    apply (follows_readEntity hdraft hc).bind
    rintro after number' after' cursor' ⟨hle, hafter, hc'⟩
    exact Follows.pure ⟨hafter, hle, hc'⟩

/-- The readings of the items of a list follow each other, at a cost for each item. -/
theorem Follows.mapM {γ δ : Type} {read : γ → Reading α} {read' : δ → Bounded β} {items : List δ}
    (item : δ → γ) (cost : δ → Nat) (given : α → β → Prop)
    (hitem : ∀ i ∈ items, ∀ credit cursor, Has page (credit + cost i) cursor →
      Follows page cursor number (read (item i)) (read' i)
        fun a number' b cursor' => given a b ∧ number' = number ∧ Has page credit cursor')
    (hc : Has page (credit + (items.map cost).sum) cursor) :
    Follows page cursor number ((items.map item).mapM read) (items.mapM read')
      fun as number' bs cursor' => List.Forall₂ given as bs ∧ number' = number ∧
        Has page credit cursor' := by
  induction items generalizing cursor with
  | nil => exact Follows.pure ⟨.nil, rfl, hc⟩
  | cons i items ih =>
    rw [List.map_cons, List.mapM_cons, List.mapM_cons]
    rw [List.map_cons, List.sum_cons] at hc
    apply (hitem i List.mem_cons_self (credit + (items.map cost).sum) cursor
      (hc.mono (by omega))).bind
    rintro a _ b cursor' ⟨hgiven, rfl, hc'⟩
    apply (ih (fun j hj => hitem j (List.mem_cons_of_mem i hj)) hc').bind
    rintro as _ bs cursor'' ⟨hall, rfl, hc''⟩
    exact Follows.pure ⟨.cons hgiven hall, rfl, hc''⟩

end QuantumIR.Bounded
