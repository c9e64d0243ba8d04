import Mathlib
import QuantumIR.Graph

/-!
A walk meets exactly the nodes that can be reached. While it goes on, what is still to be met is
what can be reached from the stack without the nodes that were met. Where no walk comes back, every
edge leads to a node of lower rank.
-/

namespace QuantumIR.Graph

variable {α : Type} {graph other : Graph α} {met : List α} {a b node : α}

/-- A node that may be met: it is in the graph and was not met yet. -/
def Free (graph : Graph α) (met : List α) (node : α) : Prop :=
  node ∈ graph.nodes ∧ node ∉ met

/-- An edge to a node that may be met. -/
def Leads (graph : Graph α) (met : List α) (a b : α) : Prop :=
  (a, b) ∈ graph.edges ∧ graph.Free met b

/-- Some edges, one after the other, lead from one node to another, and none of the nodes on the way
was met. -/
def ReachesFree (graph : Graph α) (met : List α) (a b : α) : Prop :=
  graph.Free met a ∧ Relation.ReflTransGen (graph.Leads met) a b

/-- Some edges, one after the other, lead from a node of the graph to another one. -/
def Reaches (graph : Graph α) (a b : α) : Prop :=
  graph.ReachesFree [] a b

theorem ReachesFree.free (h : graph.ReachesFree met a b) : graph.Free met b := by
  rcases Relation.ReflTransGen.cases_tail h.2 with rfl | ⟨_, -, hlast⟩
  · exact h.1
  · exact hlast.2

/-- What is reached without more nodes is reached without fewer. -/
theorem ReachesFree.mono {met' : List α} (h : graph.ReachesFree met a b) (hmet : met' ⊆ met) :
    graph.ReachesFree met' a b := by
  have hfree : ∀ node, graph.Free met node → graph.Free met' node :=
    fun node hnode => ⟨hnode.1, fun hmem => hnode.2 (hmet hmem)⟩
  have hleads : ∀ node next, graph.Leads met node next → graph.Leads met' node next :=
    fun _ next hleads => ⟨hleads.1, hfree next hleads.2⟩
  exact ⟨hfree a h.1, Relation.ReflTransGen.mono hleads a b h.2⟩

theorem ReachesFree.head (hfree : graph.Free met a) (hedge : (a, node) ∈ graph.edges)
    (h : graph.ReachesFree met node b) : graph.ReachesFree met a b :=
  ⟨hfree, .head ⟨hedge, h.1⟩ h.2⟩

/-- After the last visit of a node, what is reached is reached without it. -/
theorem ReachesFree.cases_visit (h : graph.ReachesFree met a b) (top : α) :
    b = top ∨ graph.ReachesFree (top :: met) a b ∨
      ∃ next, (top, next) ∈ graph.edges ∧ graph.ReachesFree (top :: met) next b := by
  have hfree : ∀ node, graph.Free met node → node ≠ top → graph.Free (top :: met) node := by
    intro node hnode hne
    refine ⟨hnode.1, ?_⟩
    rw [List.mem_cons, not_or]
    exact ⟨hne, hnode.2⟩
  obtain ⟨hstart, hpath⟩ := h
  induction hpath with
  | refl =>
    by_cases htop : a = top
    · exact Or.inl htop
    · exact Or.inr (Or.inl ⟨hfree a hstart htop, .refl⟩)
  | @tail middle b _ hlast ih =>
    by_cases htop : b = top
    · exact Or.inl htop
    · have hb := hfree b hlast.2 htop
      rcases ih with rfl | hpath | ⟨next, hedge, hpath⟩
      · exact Or.inr (Or.inr ⟨b, hlast.1, hb, .refl⟩)
      · exact Or.inr (Or.inl ⟨hpath.1, hpath.2.tail ⟨hlast.1, hb⟩⟩)
      · exact Or.inr (Or.inr ⟨next, hedge, hpath.1, hpath.2.tail ⟨hlast.1, hb⟩⟩)

/-- Ranks that go down along every edge are lower at what is reached. -/
theorem Reaches.rank_le {rank : α → Nat} (h : graph.Reaches a b)
    (hrank : ∀ a ∈ graph.nodes, ∀ b, (a, b) ∈ graph.edges → rank b < rank a) :
    rank b ≤ rank a := by
  obtain ⟨hstart, hpath⟩ := h
  induction hpath with
  | refl => exact le_rfl
  | @tail middle last hpath hlast ih =>
    have hmiddle := (ReachesFree.free ⟨hstart, hpath⟩).1
    exact (hrank middle hmiddle last hlast.1).le.trans ih

variable [DecidableEq α]

theorem mem_successors : b ∈ graph.successors a ↔ (a, b) ∈ graph.edges := by
  simp [successors]

/-- A walk from a stack meets what can be reached from it without the nodes that were met. -/
theorem mem_walkFrom_iff {stack : List α} :
    node ∈ graph.walkFrom met stack ↔ ∃ start ∈ stack, graph.ReachesFree met start node := by
  induction met, stack using walkFrom.induct graph with
  | case1 met => simp [walkFrom]
  | case2 met top stack hfree fresh ih =>
    rw [walkFrom, dif_pos hfree, List.mem_cons, ih]
    constructor
    · rintro (rfl | ⟨start, hstart, hreaches⟩)
      · exact ⟨node, List.mem_cons_self, hfree, .refl⟩
      · have hless := hreaches.mono (List.subset_cons_self top met)
        rcases List.mem_append.mp hstart with hstart | hstart
        · have hedge := mem_successors.mp (List.mem_of_mem_filter hstart)
          exact ⟨top, List.mem_cons_self, hless.head hfree hedge⟩
        · exact ⟨start, List.mem_cons_of_mem top hstart, hless⟩
    · rintro ⟨start, hstart, hreaches⟩
      rcases hreaches.cases_visit top with rfl | hreaches' | ⟨next, hedge, hnext⟩
      · exact Or.inl rfl
      · have hne : start ≠ top := fun heq => hreaches'.1.2 (heq ▸ List.mem_cons_self)
        have hmem := (List.mem_cons.mp hstart).resolve_left hne
        exact Or.inr ⟨start, List.mem_append_right _ hmem, hreaches'⟩
      · have hmem : next ∈ fresh :=
          List.mem_filter.mpr ⟨mem_successors.mpr hedge, decide_eq_true hnext.1.2⟩
        exact Or.inr ⟨next, List.mem_append_left _ hmem, hnext⟩
  | case3 met top stack hfree ih =>
    rw [walkFrom, dif_neg hfree, ih]
    constructor
    · rintro ⟨start, hstart, hreaches⟩
      exact ⟨start, List.mem_cons_of_mem top hstart, hreaches⟩
    · rintro ⟨start, hstart, hreaches⟩
      rcases List.mem_cons.mp hstart with rfl | hstart
      · exact absurd hreaches.1 hfree
      · exact ⟨start, hstart, hreaches⟩

/-- A walk meets what can be reached from its start. -/
theorem mem_walk_iff : node ∈ graph.walk a ↔ graph.Reaches a node := by
  rw [walk, mem_walkFrom_iff]
  simp [Reaches]

theorem mem_nodes_of_mem_walk (h : node ∈ graph.walk a) : node ∈ graph.nodes :=
  (mem_walk_iff.mp h).free.1

/-- A walk meets no node twice. -/
theorem nodup_walkFrom (graph : Graph α) (met stack : List α) : (graph.walkFrom met stack).Nodup := by
  induction met, stack using walkFrom.induct graph with
  | case1 met => simp [walkFrom]
  | case2 met top stack hfree fresh ih =>
    rw [walkFrom, dif_pos hfree, List.nodup_cons]
    refine ⟨fun hagain => ?_, ih⟩
    obtain ⟨start, -, hreaches⟩ := mem_walkFrom_iff.mp hagain
    exact hreaches.free.2 List.mem_cons_self
  | case3 met top stack hfree ih => rwa [walkFrom, dif_neg hfree]

theorem nodup_walk (graph : Graph α) (a : α) : (graph.walk a).Nodup :=
  nodup_walkFrom graph [] [a]

/-- What a walk meets does not depend on the order of nodes and edges. -/
theorem mem_walk_congr (hnodes : ∀ node, node ∈ graph.nodes ↔ node ∈ other.nodes)
    (hedges : ∀ edge, edge ∈ graph.edges ↔ edge ∈ other.edges) :
    node ∈ graph.walk a ↔ node ∈ other.walk a := by
  have hleads : graph.Leads [] = other.Leads [] := by
    funext a b
    simp only [Leads, Free, hnodes, hedges]
  simp only [mem_walk_iff, Reaches, ReachesFree, Free, hnodes, hleads]

/-- What is reached over an edge is reached from the node before it. -/
theorem walk_subset_walk (ha : a ∈ graph.nodes) (hedge : (a, b) ∈ graph.edges) :
    graph.walk b ⊆ graph.walk a := by
  intro node hnode
  have hreaches : graph.Reaches a node :=
    (mem_walk_iff.mp hnode).head ⟨ha, List.not_mem_nil⟩ hedge
  exact mem_walk_iff.mpr hreaches

/-- Where no walk comes back to a node, an edge from there leaves fewer nodes to be met. -/
theorem length_walk_lt (ha : a ∈ graph.nodes) (hedge : (a, b) ∈ graph.edges)
    (hback : a ∉ graph.walk b) : (graph.walk b).length < (graph.walk a).length := by
  have hself : a ∈ graph.walk a := mem_walk_iff.mpr ⟨⟨ha, List.not_mem_nil⟩, .refl⟩
  have hnodup : (a :: graph.walk b).Nodup := List.nodup_cons.mpr ⟨hback, nodup_walk graph b⟩
  have hsubset : a :: graph.walk b ⊆ graph.walk a :=
    List.cons_subset.mpr ⟨hself, walk_subset_walk ha hedge⟩
  exact (hnodup.subperm hsubset).length_le

theorem hasCycle_eq_true_iff : graph.hasCycle = true ↔
    ∃ a ∈ graph.nodes, ∃ b, (a, b) ∈ graph.edges ∧ a ∈ graph.walk b := by
  simp only [hasCycle, List.any_eq_true, mem_successors, decide_eq_true_eq]

/-- A graph has no cycle exactly if its nodes have ranks that go down along every edge. -/
theorem hasCycle_eq_false_iff : graph.hasCycle = false ↔
    ∃ rank : α → Nat, ∀ a ∈ graph.nodes, ∀ b, (a, b) ∈ graph.edges → rank b < rank a := by
  constructor
  · intro h
    refine ⟨fun node => (graph.walk node).length, fun a ha b hedge => length_walk_lt ha hedge ?_⟩
    intro hback
    have hcycle := hasCycle_eq_true_iff.mpr ⟨a, ha, b, hedge, hback⟩
    rw [h] at hcycle
    cases hcycle
  · rintro ⟨rank, hrank⟩
    rw [Bool.eq_false_iff, ne_eq, hasCycle_eq_true_iff]
    rintro ⟨a, ha, b, hedge, hback⟩
    have hle := (mem_walk_iff.mp hback).rank_le hrank
    exact absurd (hrank a ha b hedge) (Nat.not_lt.mpr hle)

end QuantumIR.Graph
