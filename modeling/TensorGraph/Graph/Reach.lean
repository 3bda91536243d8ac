import TensorGraph.Graph.Release

/-! # Reachability

`closure` follows successors from a list of starting points without leaving a given domain.
The domain shrinks with every point visited, which is why it ends.
-/

namespace TensorGraph

/-- The points of the domain that can be reached from the work list inside it. -/
def closure {α : Type} [DecidableEq α] (next : α → List α) : List α → List α → List α
  | _, [] => []
  | domain, x :: work =>
    if h : x ∈ domain then
      have := List.length_erase_of_mem h
      have := List.length_pos_of_mem h
      x :: closure next (domain.erase x) (next x ++ work)
    else closure next domain work
termination_by domain work => (domain.length, work.length)
decreasing_by
  · exact Prod.Lex.left _ _ (by omega)
  · exact Prod.Lex.right _ (by simp)

namespace Arena

variable {β : Type}

def producers (a : Arena β) (id : NodeId) : List NodeId :=
  ((a.node? id).map fun n => n.inputs.map Value.node).getD []

def consumers (a : Arena β) (id : NodeId) : List NodeId :=
  ((a.node? id).map fun n => n.outputs.flatMap fun o => o.uses.map Use.node).getD []

/-- The live nodes on which the given ones depend, those included. -/
def ancestors (a : Arena β) (roots : List NodeId) : List NodeId :=
  closure a.producers a.nodeIds roots

/-- The nodes that no result depends on. -/
def candidates (a : Arena β) : List NodeId :=
  let reachable := a.ancestors a.results
  a.nodeIds.filter (· ∉ reachable)

/-- Releases the dead ones among the nodes that no result depends on, until none is left. -/
def collectGarbage (a : Arena β) : Arena β × Nat := a.exhaust a.candidates

end Arena

end TensorGraph
