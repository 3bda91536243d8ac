import TensorGraph.Attention.Island
import TensorGraph.Rewrite.Commit

/-! # Fusion of an island

The nodes of an island are copied into a body. Parameters stand for the values that enter it,
results for the values that leave it, and one subgraph with that body takes the place of the
island.
-/

namespace TensorGraph.Attention

/-- The annotation that tells by which variant a subgraph was found. -/
def variantKey : String := "tokenizer.variant"

/-- A body under construction, and what stands in it for values of the graph, the latest first. -/
structure Copying where
  body : Graph
  known : List (Value × Value)
  /-- The names of the parameters. -/
  names : List String

namespace Copying

def start (table : CapabilityTable) : Copying := ⟨.empty table, [], []⟩

def value (c : Copying) (v : Value) : Except GraphError Value :=
  match c.known.find? fun x => x.1 == v with
  | some x => .ok x.2
  | none => .error (.unknownOutput v)

/-- The name of a producer, or one made of its position; the position follows a name in use. -/
def parameterName (c : Copying) (position : Nat) (producer : String) : String :=
  let name := if producer.isEmpty then "input" ++ toString position else producer
  if c.names.contains name then name ++ "." ++ toString position else name

def addParameter (g : Graph) (c : Copying) (v : Value) (position : Nat) :
    Except GraphError Copying :=
  match g.spec? v with
  | none => .error (.unknownOutput v)
  | some spec => do
    let producer ← g.node v.node
    let name := c.parameterName position producer.name
    let (body, id) := c.body.addParameter name spec
    return ⟨body, (v, id.output 0) :: c.known, name :: c.names⟩

/-- A copy of a node, with the recorded specs, the name and the annotations. -/
def addCopy (g : Graph) (c : Copying) (id : NodeId) : Except GraphError Copying := do
  let n ← g.node id
  let inputs ← n.inputs.mapM c.value
  let (body, copy) ← c.body.addVerbatim n.op inputs n.specs
  let body := body.modifyNode copy.index fun m =>
    { m with name := n.name, annotations := n.annotations }
  let known := (List.range n.outputs.length).map fun port => (id.output port, copy.output port)
  return { c with body, known := known ++ c.known }

def addResult (c : Copying) (v : Value) : Except GraphError Copying := do
  let (body, _) ← c.body.addResult (← c.value v)
  return { c with body }

end Copying

namespace Island

/-- The body for an island: its parameters and results follow the boundary. -/
def body (i : Island) (g : Graph) (b : Boundary) : Except GraphError Graph := do
  let c ← b.inputs.zipIdx.foldlM (fun c (v, position) => c.addParameter g v position)
    (Copying.start g.table)
  let c ← (i.constants ++ i.nodes).foldlM (Copying.addCopy g) c
  let c ← b.outputs.foldlM Copying.addResult c
  return c.body

/-- The subgraph that is to take the place of an island. -/
def replacement (i : Island) (g : Graph) (b : Boundary) : Except GraphError (Plan Body) := do
  let body ← i.body g b
  let sink ← g.node i.sink
  let (p, fused) ← Plan.empty.make g (.subgraph (.mk body)) (b.inputs.map .graph)
  let p ← p.rename fused sink.name
  let p ← p.annotate fused variantKey i.variant.name
  return b.outputs.zipIdx.foldl (fun p (v, port) => p.replace v (.staged fused port))
    (p.inherit i.nodes)

def fuse (i : Island) (g : Graph) (b : Boundary) : Except GraphError (Graph × Commit) := do
  g.commit (← i.replacement g b)

end Island

end TensorGraph.Attention
