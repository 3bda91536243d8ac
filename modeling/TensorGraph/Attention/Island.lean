import TensorGraph.Attention.Motif
import TensorGraph.Graph.Ranking
import TensorGraph.Graph.Reach

/-! # Islands

An island is a set of nodes that may move into the body of one subgraph: a match of a motif with
the few steps that follow it. It may move if only permitted values leave it and if no path leaves
it and enters it again.
-/

namespace TensorGraph.Attention

structure Config where
  /-- The variants that are tried at every root, in this order. -/
  variants : List Variant
  /-- How many steps after the second product may be taken along. -/
  maxEpilogue : Nat
  /-- Constants are copied into the body and do not become inputs. -/
  inlineConstants : Bool
  /-- Values other than the last may leave an island that is not quantized. -/
  allowIntermediate : Bool

def Config.standard : Config := ⟨[.quantized, .preTransposed, .plain], 4, true, true⟩

structure Island where
  variant : Variant
  /-- The second product. -/
  root : NodeId
  /-- The nodes that move, by rank. -/
  nodes : List NodeId
  /-- The constants that are copied. -/
  constants : List NodeId

/-- The values that enter an island, in the order of their first use, and those that leave it. -/
structure Boundary where
  inputs : List Value
  outputs : List Value

namespace Island

def epilogueKinds : List Kind := [.transpose, .dequantize, .convert]

/-- The nodes with at most so many steps after the last, as long as each has the next one as the
only reader of its first output. -/
def addEpilogue (g : Graph) : Nat → List NodeId → NodeId → Option (List NodeId)
  | 0, nodes, _ => some nodes
  | count + 1, nodes, last =>
    match g.uses (last.output 0) with
    | [u] =>
      match g.kind? u.node with
      | none => none
      | some kind =>
        if epilogueKinds.contains kind && !nodes.contains u.node then
          addEpilogue g count (nodes ++ [u.node]) u.node
        else some nodes
    | _ => some nodes

/-- The constants that the nodes read, in the order of their first use. -/
def constantsOf (g : Graph) (nodes : List NodeId) : List NodeId :=
  ((nodes.flatMap g.producers).filter fun id => g.kind? id == some .constant).eraseDups

/-- The island of a match. -/
def collect (c : Config) (r : Ranking) (g : Graph) (variant : Variant) (m : Match) :
    Option Island :=
  let root := m.root.node
  match addEpilogue g c.maxEpilogue m.nodes root with
  | none => none
  | some members =>
    if members.all r.order.contains then
      let nodes := r.order.filter members.contains
      some ⟨variant, root, nodes, if c.inlineConstants then constantsOf g nodes else []⟩
    else none

def sink (i : Island) : NodeId := i.nodes.getLast?.getD i.root

def isLive (i : Island) (g : Graph) : Bool := (i.nodes ++ i.constants).all g.contains

def inputs (i : Island) (nodes : List (Node Body)) : List Value :=
  let entering := (nodes.flatMap Node.inputs).filter fun v =>
    !i.nodes.contains v.node && !i.constants.contains v.node
  entering.eraseDups

/-- The outputs of a node that something outside the island reads. -/
def exports (i : Island) (id : NodeId) (n : Node Body) : List Value :=
  n.outputs.zipIdx.filterMap fun (o, port) =>
    if o.uses.any fun u => !i.nodes.contains u.node then some (id.output port) else none

def boundary (i : Island) (g : Graph) : Except GraphError Boundary := do
  let nodes ← i.nodes.mapM g.node
  return ⟨i.inputs nodes, (i.nodes.zip nodes).flatMap fun (id, n) => i.exports id n⟩

/-- Nothing leaves that the variant has to keep to itself. -/
def permits (i : Island) (c : Config) (b : Boundary) : Bool :=
  b.outputs.all (fun v => v.node == i.sink) || (c.allowIntermediate && i.variant != .quantized)

def highest? (i : Island) (r : Ranking) : Option Nat := (i.nodes.filterMap r.rank?).max?

/-- No path leaves the island and enters it again. What is ranked above all its nodes cannot lead
back into it and is not followed. -/
def isConvex (i : Island) (g : Graph) (r : Ranking) : Bool :=
  match i.highest? r with
  | none => false
  | some highest =>
    let outside := (i.nodes.flatMap g.consumers).filter fun id => !i.nodes.contains id
    let reached := closure g.consumers (r.order.take (highest + 1)) outside
    i.nodes.all g.contains && reached.all fun id => !i.nodes.contains id

end Island

end TensorGraph.Attention
