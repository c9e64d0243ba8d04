import QuantumIR.Graph
import QuantumIR.Module

/-!
The graphs of a program: which function calls which, and which block of a function
may go on to which.
-/

namespace QuantumIR

namespace Module

/-- Each call as a pair of caller and callee, in the order of the text and each pair once. -/
def calls (module : Module) : List (String × String) :=
  (module.functions.flatMap fun function =>
    (function.instructions.filterMap Instruction.callee?).map (function.name, ·)).eraseDups

/-- The functions of a module by name, also those that are only called, and the calls between
them. -/
def callGraph (module : Module) : Graph String where
  nodes := (module.functions.map Function.name ++ module.calls.map Prod.snd).eraseDups
  edges := module.calls

/-- The names of the functions that a function calls, sorted. -/
def callees (module : Module) (name : String) : List String :=
  (module.callGraph.successors name).mergeSort fun a b => decide (a ≤ b)

/-- Whether some function can come to call itself. -/
def isRecursive (module : Module) : Bool :=
  module.callGraph.hasCycle

end Module

namespace Function

/-- The place of the last block with a given label. -/
def lastBlockIndex? (function : Function) (label : String) : Option Nat :=
  (function.blocks.reverse.findIdx? fun block => block.label = label).map
    (function.blocks.length - 1 - ·)

/-- The blocks that a block's terminator may go on to, by their places. Blocks that
share a label share the place of the last of them. -/
def flowFrom (function : Function) (block : Block) : List (Nat × Nat) :=
  match function.lastBlockIndex? block.label, block.terminator? with
  | some start, some terminator =>
    (terminator.successors.filterMap function.lastBlockIndex?).map (start, ·)
  | _, _ => []

/-- The blocks of a function by their places, and the branches between them. -/
def flowGraph (function : Function) : Graph Nat where
  nodes := List.range function.blocks.length
  edges := function.blocks.flatMap function.flowFrom

/-- The labels of the blocks that control can reach from the first one. -/
def reachableLabels (function : Function) : List String :=
  ((function.flowGraph.walk 0).filterMap fun i => (function.blocks[i]?).map Block.label).eraseDups

/-- The labels of the blocks that control cannot reach, in the order of the text. -/
def unreachableLabels (function : Function) : List String :=
  (function.blocks.map Block.label).filter fun label => label ∉ function.reachableLabels

/-- Whether the function has a loop. -/
def hasLoop (function : Function) : Bool :=
  function.flowGraph.hasCycle

end Function

end QuantumIR
