import TensorGraph.Graph.Edit
import TensorGraph.Graph.Order

/-! # Inference in graphs

Nodes are added with inferred outputs, and the outputs of all nodes can be inferred anew in
topological order. A body is described by what its results are when its parameters are bound to
given specs.
-/

namespace TensorGraph

/-- Types of bodies that inference can look at. -/
class Described (β : Type) where
  describe : β → Interface

instance : Described Interface := ⟨id⟩

namespace Arena

variable {β : Type} [Described β]

def infer (a : Arena β) (op : Operation β) (inputs : List Spec) :
    Except GraphError (List Spec) :=
  a.table.infer (op.map Described.describe) inputs

def addNode (a : Arena β) (op : Operation β) (inputs : List Value) :
    Except GraphError (Arena β × NodeId) := do
  let specs ← a.specs inputs
  let outputs ← a.infer op specs
  a.addVerbatim op inputs outputs

def addResult (a : Arena β) (v : Value) : Except GraphError (Arena β × NodeId) :=
  a.addNode Primitive.result [v]

/-- What inference gives for a node on the recorded specs of its inputs. The number of outputs
of a node cannot change. -/
def inferNode (a : Arena β) (id : NodeId) : Except GraphError (List Spec) := do
  let n ← a.node id
  let inputs ← a.specs n.inputs
  let outputs ← a.infer n.op inputs
  if outputs.length = n.outputs.length then return outputs
  else throw (.shapeInference n.kind (.outputCount n.outputs.length outputs.length))

def setSpecs (a : Arena β) (id : NodeId) (specs : List Spec) : Arena β :=
  a.modifyNode id.index fun n =>
    { n with outputs := n.outputs.zipWith (fun o spec => { o with spec }) specs }

/-- Infers nodes in the given order. The specs found before a failure stay. -/
def inferAll (a : Arena β) : List NodeId → Arena β × Except GraphError Unit
  | [] => (a, .ok ())
  | id :: ids =>
    match a.inferNode id with
    | .ok specs => inferAll (a.setSpecs id specs) ids
    | .error e => (a, .error e)

def revalidate (a : Arena β) : Arena β × Except GraphError Unit :=
  match a.topologicalOrder with
  | .error e => (a, .error e)
  | .ok order =>
    match a.inferAll order with
    | (a, .ok ()) => (a.bump, .ok ())
    | (a, .error e) => (a, .error e)

def setParameter (a : Arena β) (id : NodeId) (spec : Spec) : Arena β :=
  a.modifyNode id.index fun n =>
    { n with
      op := Primitive.parameter spec
      outputs := n.outputs.modify 0 fun o => { o with spec } }

/-- Parameters bound to specs one by one, from the given position on. -/
def bindFrom (a : Arena β) : Nat → List (NodeId × Spec) → Except GraphError (Arena β)
  | _, [] => .ok a
  | position, (id, spec) :: rest =>
    match a.node? id with
    | none => .error (.unknownNode id)
    | some n =>
      match n.outputs.head? with
      | none => .error (.unknownOutput (id.output 0))
      | some o =>
        if o.spec.elementType = spec.elementType then
          bindFrom (a.setParameter id spec) (position + 1) rest
        else
          .error (.shapeInference .parameter
            (.parameterType position o.spec.elementType spec.elementType))

/-- All parameters bound to specs of the same element types. -/
def bindParameters (a : Arena β) (specs : List Spec) : Except GraphError (Arena β) :=
  if specs.length = a.parameters.length then
    (a.bindFrom 0 (a.parameters.zip specs)).map bump
  else
    .error (.inputArity .subgraph (.exactly a.parameters.length) specs.length)

/-- The specs of the results on given specs of the parameters. -/
def resultsOn (a : Arena β) (specs : List Spec) : Inferred (List Spec) :=
  match a.bindParameters specs with
  | .error e => .error (.bodyInputs e)
  | .ok a =>
    match a.revalidate with
    | (_, .error e) => .error (.ofBody e)
    | (a, .ok ()) => .ok a.resultSpecs

def interface (a : Arena β) : Interface := ⟨a.live, a.resultsOn⟩

end Arena

end TensorGraph
