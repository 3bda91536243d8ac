import TensorGraph.Graph.Basic

/-! # Topological order

Nodes are placed one after the other, always the first in slot order among those whose inputs
have all been placed. The number of pending inputs of each slot is counted down along the lists
of uses.
-/

namespace TensorGraph

/-- A node put into a list that is in slot order. -/
def insertReady (id : NodeId) : List NodeId → List NodeId
  | [] => [id]
  | x :: ready => if x.before id then x :: insertReady id ready else id :: x :: ready

/-- The pending inputs of every slot, and the nodes without any that are not placed yet. -/
structure Schedule where
  pending : Array Nat
  ready : List NodeId

namespace Schedule

def addReady (s : Schedule) (id : NodeId) : Schedule := { s with ready := insertReady id s.ready }

/-- One input of a node is there. -/
def supply (s : Schedule) (u : Use) : Schedule :=
  let left := s.pending.getD u.node.index 0 - 1
  let s := { s with pending := s.pending.setIfInBounds u.node.index left }
  if left = 0 then s.addReady u.node else s

end Schedule

namespace Arena

variable {β : Type}

def inputCount (s : Slot β) : Nat := (s.node.map fun n => n.inputs.length).getD 0

/-- The schedule before any node is placed. -/
def schedule (a : Arena β) : Schedule :=
  let pending := a.slots.map inputCount
  let ready := a.nodeIds.filter fun id => pending.getD id.index 0 == 0
  ready.foldl Schedule.addReady ⟨pending, []⟩

def allUses (a : Arena β) (id : NodeId) : List Use :=
  ((a.node? id).map fun n => n.outputs.flatMap Output.uses).getD []

/-- The next nodes to be placed, at most so many. -/
def place (a : Arena β) : Nat → Schedule → List NodeId
  | 0, _ => []
  | count + 1, s =>
    match s.ready with
    | [] => []
    | id :: ready => id :: place a count ((a.allUses id).foldl Schedule.supply { s with ready })

/-- The live nodes, each after the producers of its inputs; if there is a cycle, a node that
cannot be placed. -/
def topologicalOrder (a : Arena β) : Except GraphError (List NodeId) :=
  let order := a.place a.slots.size a.schedule
  if order.length = a.live then .ok order
  else match a.nodeIds.find? (· ∉ order) with
    | some id => .error (.cyclic id)
    | none => .ok order

end Arena

end TensorGraph
