import QuantumIR.ControlFlow
import QuantumIR.Proofs.Graph.Walk
import QuantumIR.Proofs.Verified.Rules

/-!
Control flow by labels. The graph of a function has blocks by their places; an edge of it is a
branch from the block of one label to that of another. Where no two blocks share a label, a walk
over places meets the labels that branches lead to.
-/

namespace QuantumIR

/-- A terminator that stands in a block is the one that ends it. -/
theorem Block.Terminates.terminator?_eq {labels : List String} {block : Block}
    (h : block.Terminates labels) {instruction : Instruction}
    (hmem : instruction ∈ block.instructions) (hinstruction : instruction.isTerminator) :
    block.terminator? = some instruction := by
  obtain ⟨body, last, heq, -, hbody, -⟩ := h
  rw [heq] at hmem
  rw [terminator?, heq, List.getLast?_concat]
  rcases List.mem_append.mp hmem with hmem | hmem
  · rw [hbody instruction hmem] at hinstruction
    cases hinstruction
  · cases List.mem_singleton.mp hmem
    exact Option.filter_eq_some_iff.mpr ⟨rfl, hinstruction⟩

namespace Function

variable {function : Function} {label source target : String} {place start next : Nat}

/-- The block of one label may go on to that of another. -/
def Branches (function : Function) (source target : String) : Prop :=
  target ∈ function.blocks.map Block.label ∧ ∃ block ∈ function.blocks, block.label = source ∧
    ∃ terminator, block.terminator? = some terminator ∧ target ∈ terminator.successors

/-- An instruction of a block that ends as it should goes on over branches only. -/
theorem branches_of_mem_successors {block : Block} {instruction : Instruction}
    (h : block.Terminates (function.blocks.map Block.label)) (hblock : block ∈ function.blocks)
    (hinstruction : instruction ∈ block.instructions) (htarget : target ∈ instruction.successors) :
    function.Branches block.label target := by
  have hterminator : block.terminator? = some instruction := by
    apply h.terminator?_eq hinstruction
    cases instruction with
    | branch | branchIf => rfl
    | _ => exact absurd htarget List.not_mem_nil
  exact ⟨h.mem_labels hinstruction htarget, block, hblock, rfl, instruction, hterminator, htarget⟩

theorem label_of_lastBlockIndex? (h : function.lastBlockIndex? label = some place) :
    (function.blocks.map Block.label)[place]? = some label := by
  obtain ⟨back, hback, rfl⟩ := Option.map_eq_some_iff.mp h
  obtain ⟨hlt, hlabel, -⟩ := List.findIdx?_eq_some_iff_getElem.mp hback
  rw [List.getElem_reverse, decide_eq_true_eq] at hlabel
  rw [List.length_reverse] at hlt
  rw [List.getElem?_map, List.getElem?_eq_getElem (by omega), Option.map_some, hlabel]

theorem label_head {first : Block} (h : function.blocks.head? = some first) :
    (function.blocks.map Block.label)[0]? = some first.label := by
  rw [List.getElem?_map, ← List.head?_eq_getElem?, h, Option.map_some]

theorem lt_length_of_lastBlockIndex? (h : function.lastBlockIndex? label = some place) :
    place < function.blocks.length := by
  have hplace := label_of_lastBlockIndex? h
  rw [List.getElem?_map, Option.map_eq_some_iff] at hplace
  obtain ⟨block, hblock, -⟩ := hplace
  exact (List.getElem?_eq_some_iff.mp hblock).1

theorem exists_lastBlockIndex? (h : label ∈ function.blocks.map Block.label) :
    ∃ place, function.lastBlockIndex? label = some place := by
  obtain ⟨block, hblock, rfl⟩ := List.mem_map.mp h
  rw [← Option.isSome_iff_exists, lastBlockIndex?, Option.isSome_map, List.findIdx?_isSome,
    List.any_eq_true]
  exact ⟨block, List.mem_reverse.mpr hblock, decide_eq_true rfl⟩

/-- Where no two blocks share a label, the last block of a label is the one. -/
theorem lastBlockIndex?_eq_some_iff (hlabels : (function.blocks.map Block.label).Nodup) :
    function.lastBlockIndex? label = some place ↔
      (function.blocks.map Block.label)[place]? = some label := by
  refine ⟨label_of_lastBlockIndex?, fun h => ?_⟩
  obtain ⟨other, hother⟩ := exists_lastBlockIndex? (List.mem_of_getElem? h)
  have hlt := (List.getElem?_eq_some_iff.mp h).1
  have hsame := h.trans (label_of_lastBlockIndex? hother).symm
  rw [(List.getElem?_inj hlt hlabels).mp hsame, hother]

theorem mem_flowFrom_iff {block : Block} : (start, next) ∈ function.flowFrom block ↔
    function.lastBlockIndex? block.label = some start ∧
      ∃ terminator, block.terminator? = some terminator ∧
        ∃ target ∈ terminator.successors, function.lastBlockIndex? target = some next := by
  cases hstart : function.lastBlockIndex? block.label with
  | none => simp [flowFrom, hstart]
  | some found =>
    cases hterminator : block.terminator? with
    | none => simp [flowFrom, hstart, hterminator]
    | some terminator =>
      simp only [flowFrom, hstart, hterminator, List.mem_map, List.mem_filterMap, Prod.mk.injEq,
        Option.some.injEq, exists_eq_left']
      constructor
      · rintro ⟨place, ⟨target, htarget, hplace⟩, rfl, rfl⟩
        exact ⟨rfl, target, htarget, hplace⟩
      · rintro ⟨rfl, target, htarget, hplace⟩
        exact ⟨next, ⟨target, htarget, hplace⟩, rfl, rfl⟩

/-- Edges of the graph are branches. -/
theorem mem_flowGraph_edges_iff : (start, next) ∈ function.flowGraph.edges ↔
    ∃ source target, function.Branches source target ∧
      function.lastBlockIndex? source = some start ∧
      function.lastBlockIndex? target = some next := by
  rw [flowGraph, List.mem_flatMap]
  simp only [mem_flowFrom_iff]
  constructor
  · rintro ⟨block, hblock, hstart, terminator, hterminator, target, htarget, hnext⟩
    have hlabel := List.mem_of_getElem? (label_of_lastBlockIndex? hnext)
    exact ⟨block.label, target, ⟨hlabel, block, hblock, rfl, terminator, hterminator, htarget⟩,
      hstart, hnext⟩
  · rintro ⟨source, target, ⟨-, block, hblock, rfl, terminator, hterminator, htarget⟩, hstart,
      hnext⟩
    exact ⟨block, hblock, hstart, terminator, hterminator, target, htarget, hnext⟩

/-- What the graph reaches from the first block, branches lead to. -/
theorem exists_branches_of_reaches (h : function.flowGraph.Reaches 0 place) :
    ∃ first target, function.blocks.head? = some first ∧
      (function.blocks.map Block.label)[place]? = some target ∧
      Relation.ReflTransGen function.Branches first.label target := by
  obtain ⟨⟨hstart, -⟩, hpath⟩ := h
  induction hpath with
  | refl =>
    rw [flowGraph, List.mem_range] at hstart
    have hfirst := List.head?_eq_some_head (List.ne_nil_of_length_pos hstart)
    exact ⟨_, _, hfirst, label_head hfirst, .refl⟩
  | tail _ hleads ih =>
    obtain ⟨first, source, hfirst, hsource, hbranches⟩ := ih
    obtain ⟨found, target, hbranch, hfound, hnext⟩ := mem_flowGraph_edges_iff.mp hleads.1
    cases hsource.symm.trans (label_of_lastBlockIndex? hfound)
    exact ⟨first, target, hfirst, label_of_lastBlockIndex? hnext, hbranches.tail hbranch⟩

/-- What branches lead to from the first block, the graph reaches. -/
theorem exists_reaches_of_branches (hlabels : (function.blocks.map Block.label).Nodup)
    {first : Block} (hfirst : function.blocks.head? = some first)
    (h : Relation.ReflTransGen function.Branches first.label label) :
    ∃ place, function.lastBlockIndex? label = some place ∧
      function.flowGraph.Reaches 0 place := by
  have hfree : ∀ {label place}, function.lastBlockIndex? label = some place →
      function.flowGraph.Free [] place := by
    intro label place hplace
    exact ⟨List.mem_range.mpr (lt_length_of_lastBlockIndex? hplace), List.not_mem_nil⟩
  induction h with
  | refl =>
    -- The walk starts from the first block, but edges start from the last one of their label.
    have hplace := (lastBlockIndex?_eq_some_iff hlabels).mpr (label_head hfirst)
    exact ⟨0, hplace, hfree hplace, .refl⟩
  | tail _ hbranch ih =>
    obtain ⟨start, hstart, hreaches⟩ := ih
    obtain ⟨next, hnext⟩ := exists_lastBlockIndex? hbranch.1
    have hedge := mem_flowGraph_edges_iff.mpr ⟨_, _, hbranch, hstart, hnext⟩
    exact ⟨next, hnext, hreaches.1, hreaches.2.tail ⟨hedge, hfree hnext⟩⟩

theorem mem_reachableLabels : label ∈ function.reachableLabels ↔
    ∃ place, function.flowGraph.Reaches 0 place ∧
      (function.blocks.map Block.label)[place]? = some label := by
  simp only [reachableLabels, List.mem_eraseDups, List.mem_filterMap, Graph.mem_walk_iff,
    List.getElem?_map]

/-- Where no two blocks share a label, control can reach a block exactly if branches, one after the
other, lead there from the first one. -/
theorem mem_reachableLabels_iff (hlabels : (function.blocks.map Block.label).Nodup) :
    label ∈ function.reachableLabels ↔ ∃ first, function.blocks.head? = some first ∧
      Relation.ReflTransGen function.Branches first.label label := by
  rw [mem_reachableLabels]
  constructor
  · rintro ⟨place, hreaches, hplace⟩
    obtain ⟨first, target, hfirst, htarget, hbranches⟩ := exists_branches_of_reaches hreaches
    cases hplace.symm.trans htarget
    exact ⟨first, hfirst, hbranches⟩
  · rintro ⟨first, hfirst, hbranches⟩
    obtain ⟨place, hplace, hreaches⟩ := exists_reaches_of_branches hlabels hfirst hbranches
    exact ⟨place, hreaches, label_of_lastBlockIndex? hplace⟩

end Function

end QuantumIR
