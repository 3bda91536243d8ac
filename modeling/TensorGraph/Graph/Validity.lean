import TensorGraph.Graph.Order

/-! # Validity

A graph is valid if inputs and lists of uses agree, the parameters and results are live, and
there is no cycle. `validate` names the first thing that is wrong.
-/

namespace TensorGraph.Arena

variable {β : Type}

/-- The value is present and lists this use exactly once. -/
def checkInput (a : Arena β) (v : Value) (u : Use) : Except GraphError Unit :=
  match a.output? v with
  | none => .error (.unknownOutput v)
  | some o => if o.uses.count u = 1 then .ok () else .error (.consumerMismatch v)

/-- All that is listed as reading a value reads it. -/
def checkOutput (a : Arena β) (v : Value) (o : Output) : Except GraphError Unit :=
  if o.uses.all fun u => a.producer? u == some v then .ok () else .error (.consumerMismatch v)

def checkNode (a : Arena β) (id : NodeId) : Except GraphError Unit := do
  let n ← a.node id
  n.inputs.zipIdx.forM fun (v, port) => a.checkInput v (id.input port)
  n.outputs.zipIdx.forM fun (o, port) => a.checkOutput (id.output port) o

def validate (a : Arena β) : Except GraphError Unit := do
  a.nodeIds.forM a.checkNode
  (a.parameters ++ a.results).forM fun id => discard (a.node id)
  discard a.topologicalOrder

end TensorGraph.Arena
