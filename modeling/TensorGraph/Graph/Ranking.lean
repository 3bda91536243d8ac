import TensorGraph.Graph.Order

/-! # Rankings

A ranking numbers the live nodes of a graph in topological order. It belongs to the version of
the graph from which it was computed.
-/

namespace TensorGraph

structure Ranking where
  /-- The nodes by rank. -/
  order : List NodeId
  version : Nat

namespace Ranking

variable {β : Type}

def compute (a : Arena β) : Except GraphError Ranking := do
  return ⟨← a.topologicalOrder, a.version⟩

def rank? (r : Ranking) (id : NodeId) : Option Nat := r.order.idxOf? id

def isStale (r : Ranking) (a : Arena β) : Bool := r.version != a.version

/-- The ranking itself, or a new one if it is stale. -/
def refresh (r : Ranking) (a : Arena β) : Except GraphError Ranking :=
  if r.isStale a then compute a else .ok r

end Ranking

end TensorGraph
