import QuantumIR.Proofs.Bounded.Modules

/-!
The bounded reading of a whole row of tokens follows the reading of a module. References to
attribute groups are looked up after the last token, at the cost of the turns that were gained with
them.
-/

namespace QuantumIR

namespace Reading

variable {α β : Type}

/-- What is looked up takes no tokens. -/
def look (found : Except Fault α) : Reading α := StateT.lift found

theorem look_bind (found : Except Fault α) (next : α → Except Fault β) :
    look (found >>= next) = look found >>= fun a => look (next a) := by
  funext state
  cases found <;> rfl

theorem look_mapM (find : α → Except Fault β) (items : List α) :
    look (items.mapM find) = items.mapM fun a => look (find a) := by
  induction items with
  | nil => rfl
  | cons a items ih =>
    rw [List.mapM_cons, List.mapM_cons, look_bind]
    refine congrArg (look (find a) >>= ·) (funext fun b => ?_)
    rw [look_bind, ih]
    rfl

end Reading

namespace Bounded

open Reading

variable {page : Page} {cursor : Cursor} {number credit : Nat} {text : List Char}

theorem lookup_written (groups : List Group) (number : UInt32) :
    (groups.map (Group.written text page.placed)).lookup number =
      (groups.find? fun group => group.number = number).map
        fun group => group.entries.map (Entry.attribute text page.placed) := by
  induction groups with
  | nil => rfl
  | cons group groups ih =>
    rw [List.map_cons, Group.written, List.lookup_cons, List.find?_cons, ih]
    by_cases h : group.number = number
    · rw [decide_eq_true h, beq_iff_eq.mpr h.symm]
      rfl
    · rw [decide_eq_false h, beq_eq_false_iff_ne.mpr (Ne.symm h)]

theorem follows_findGroup {groups : List Group} {reference : UInt32 × Nat}
    (hc : Has page (credit + 1) cursor) :
    Follows page cursor number (look (Module.findGroup
        (groups.map (Group.written text page.placed)) (reference.1, page.placeOf reference.2)))
      (findGroup groups reference)
      fun attributes number' entries cursor' =>
        (attributes = entries.map (Entry.attribute text page.placed) ∧
          ∃ group ∈ groups, entries = group.entries) ∧
        number' = number ∧ Has page credit cursor' := by
  apply Follows.turn hc
  intro cursor' _ _ hc'
  rw [Module.findGroup, lookup_written]
  dsimp only
  cases hgroup : groups.find? fun group => group.number = reference.1 with
  | none => exact follows_failAt rfl fun _ hcause => by cases hcause
  | some group =>
    exact Follows.pure ⟨⟨rfl, group, List.mem_of_find?_eq_some hgroup, rfl⟩, rfl, hc'⟩

theorem eq_map_of_forall₂ {α β : Type} {f : β → α} {as : List α} {bs : List β}
    (h : List.Forall₂ (fun a b => a = f b) as bs) : as = bs.map f := by
  induction h with
  | nil => rfl
  | cons hab _ ih => rw [List.map_cons, hab, ih]

theorem exists_of_forall₂ {α β : Type} {given : α → β → Prop} {as : List α} {bs : List β}
    (h : List.Forall₂ given as bs) {b : β} (hb : b ∈ bs) : ∃ a ∈ as, given a b := by
  induction h with
  | nil => cases hb
  | @cons a _ as _ hab _ ih =>
    rcases List.mem_cons.mp hb with rfl | hb
    · exact ⟨a, List.mem_cons_self, hab⟩
    · obtain ⟨a', ha', hgiven⟩ := ih hb
      exact ⟨a', List.mem_cons_of_mem a ha', hgiven⟩

/-- A function with the attributes of the groups it refers to, as they are written in a text. -/
def writtenFunction (text : List Char) (placed : List PlacedToken) (entry : Function × List Entry) :
    Function :=
  { entry.1 with
    attributes := entry.2.map (Entry.attribute text placed) ++ entry.1.attributes }

theorem follows_resolve {groups : List Group} {entry : Function × List (UInt32 × Nat)}
    (hc : Has page (credit + (entry.2.length + 1)) cursor) :
    Follows page cursor number (look (Module.resolve (groups.map (Group.written text page.placed))
        (entry.1, page.refs entry.2)))
      (resolve groups entry)
      fun function number' entry' cursor' =>
        (function = writtenFunction text page.placed entry' ∧
          ∀ e ∈ entry'.2, ∃ group ∈ groups, e ∈ group.entries) ∧
        number' = number ∧ Has page credit cursor' := by
  apply Follows.turn hc
  intro cursor' _ _ hc'
  rw [Module.resolve, look_bind, look_mapM, Page.refs]
  have hcost : (entry.2.map fun _ => 1).sum = entry.2.length := by
    rw [List.map_const', List.sum_replicate, smul_eq_mul, Nat.mul_one]
  refine (Follows.mapM (fun reference : UInt32 × Nat => (reference.1, page.placeOf reference.2))
    (fun _ => 1) (fun attributes entries =>
      attributes = entries.map (Entry.attribute text page.placed) ∧
        ∃ group ∈ groups, entries = group.entries)
    (fun _ _ _ _ hc => follows_findGroup hc) (hcost ▸ hc')).bind ?_
  rintro found _ entries cursor'' ⟨hall, rfl, hc''⟩
  refine Follows.pure ⟨⟨?_, ?_⟩, rfl, hc''⟩
  · rw [writtenFunction, List.map_flatten, ← eq_map_of_forall₂ (hall.imp fun _ _ h => h.1)]
  · intro e he
    obtain ⟨inner, hinner, he⟩ := List.mem_flatten.mp he
    obtain ⟨_, -, -, group, hgroup, rfl⟩ := exists_of_forall₂ hall hinner
    exact ⟨group, hgroup, he⟩

/-- The module that an outline stands for in a text. -/
def Outline.written (text : List Char) (placed : List PlacedToken) (outline : Outline) :
    Module where
  name := Source.moduleName text
  source := outline.source
  opaqueTypes := outline.opaqueTypes
  globals := outline.globals
  functions := outline.functions.map (writtenFunction text placed)

/-- Each keyword attribute of a function has its tokens inside a group. -/
def Outline.Encloses (outline : Outline) : Prop :=
  ∀ entry ∈ outline.functions, ∀ attr ∈ entry.2, ∃ group ∈ outline.groups,
    attr.Between group.first (group.last + 1)

/-- The module that a row of tokens spells. -/
def readTokens (text : List Char) : Reading Module := do
  let draft ← Module.readEntities text
  let functions ← look (draft.functions.mapM (Module.resolve draft.groups))
  return {
    name := Source.moduleName text
    source := draft.source
    opaqueTypes := draft.opaqueTypes
    globals := draft.globals
    functions }

theorem follows_readOutline (hc : Has page (credit + 1) cursor) :
    Follows page cursor number (readTokens text) readOutline
      fun module _ outline cursor' => module = outline.written text page.placed ∧
        outline.Encloses ∧ Has page credit cursor' := by
  apply (follows_readEntities hc).bind
  rintro _ number draft cursor' ⟨⟨rfl, hencloses⟩, hc'⟩
  rw [look_mapM]
  have howed : owed (draft.written text page).functions =
      (draft.functions.map fun entry => entry.2.length + 1).sum := by
    simp [owed, Draft.written, Page.refs, Function.comp_def]
  refine (Follows.mapM (fun entry : Function × List (UInt32 × Nat) =>
      (entry.1, page.refs entry.2)) (fun entry => entry.2.length + 1)
    (fun function entry' => function = writtenFunction text page.placed entry' ∧
      ∀ e ∈ entry'.2, ∃ group ∈ draft.groups, e ∈ group.entries)
    (fun _ _ _ _ hc => follows_resolve hc) (howed ▸ hc')).bind ?_
  rintro functions _ entries cursor'' ⟨hall, rfl, hc''⟩
  refine Follows.pure ⟨?_, ?_, hc''⟩
  · rw [Outline.written, ← eq_map_of_forall₂ (hall.imp fun _ _ h => h.1)]
    rfl
  · intro entry hentry attr hattr
    obtain ⟨_, -, -, hgroups⟩ := exists_of_forall₂ hall hentry
    obtain ⟨group, hgroup, hmem⟩ := hgroups attr hattr
    exact ⟨group, hgroup, hencloses group hgroup attr hmem⟩

/-- Two turns for each token and one more are enough for the outline of a whole row. -/
theorem follows_wholeRow (page : Page) (text : List Char) (spare : Nat) :
    Follows page ⟨0, 2 * page.placed.length + 1 + spare⟩ 0 (readTokens text) readOutline
      fun module _ outline _ => module = outline.written text page.placed ∧ outline.Encloses := by
  have hcredit : Has page (0 + 1) ⟨0, 2 * page.placed.length + 1 + spare⟩ :=
    ⟨Nat.zero_le _, Nat.le_add_right (2 * page.placed.length + 1) spare⟩
  exact (follows_readOutline hcredit).imp fun _ _ _ _ h => ⟨h.1, h.2.1⟩

end Bounded

end QuantumIR
