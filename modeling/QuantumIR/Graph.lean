/-!
Finite directed graphs and the order in which a depth-first walk meets their nodes.
A walk keeps a stack: it takes the node on top, passes over it if it was met
before, and else puts the node's successors on the stack, the first one on top.
-/

namespace QuantumIR

/-- A graph by its nodes and its edges. The order of edges is that of the successors. -/
structure Graph (α : Type) where
  nodes : List α
  edges : List (α × α)

namespace Graph

variable {α : Type} [DecidableEq α]

/-- The nodes that an edge leads to from a given one. -/
def successors (graph : Graph α) (node : α) : List α :=
  (graph.edges.filter fun edge => edge.1 = node).map Prod.snd

/-- The nodes that are still to be met. -/
def unmet (graph : Graph α) (met : List α) : List α :=
  graph.nodes.filter fun node => node ∉ met

theorem unmet_length_lt (graph : Graph α) {met : List α} {node : α}
    (hnode : node ∈ graph.nodes) (hmet : node ∉ met) :
    (graph.unmet (node :: met)).length < (graph.unmet met).length := by
  have hfilter :
      graph.unmet (node :: met) = (graph.unmet met).filter fun other => other ≠ node := by
    simp [unmet, List.filter_filter]
  rw [hfilter, List.length_filter_lt_length_iff_exists]
  exact ⟨node, by simp [unmet, hnode, hmet], by simp⟩

/-- The nodes that a walk from a stack meets after those in `met`, in order. -/
def walkFrom (graph : Graph α) (met : List α) : List α → List α
  | [] => []
  | node :: stack =>
    if _h : node ∈ graph.nodes ∧ node ∉ met then
      let fresh := (graph.successors node).filter fun next => next ∉ node :: met
      node :: walkFrom graph (node :: met) (fresh ++ stack)
    else walkFrom graph met stack
termination_by stack => ((graph.unmet met).length, stack.length)
decreasing_by
  · exact Prod.Lex.left _ _ (graph.unmet_length_lt _h.1 _h.2)
  · exact Prod.Lex.right _ (by simp)

/-- The nodes that a walk from one node meets, that node first. -/
def walk (graph : Graph α) (start : α) : List α :=
  graph.walkFrom [] [start]

/-- Whether some node can be reached from itself over at least one edge. -/
def hasCycle (graph : Graph α) : Bool :=
  graph.nodes.any fun node => (graph.successors node).any fun next => node ∈ graph.walk next

end Graph

end QuantumIR
