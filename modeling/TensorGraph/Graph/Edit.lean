import TensorGraph.Graph.Basic

/-! # Edits

The steps from which every change of a graph is made: taking a slot, attaching and moving the
inputs that read a value, and remarks on nodes. Each change of structure raises the version.
-/

namespace TensorGraph.Arena

variable {β : Type}

def bump (a : Arena β) : Arena β := { a with version := a.version + 1 }

def modifyNode (a : Arena β) (index : Nat) (f : Node β → Node β) : Arena β :=
  { a with slots := a.slots.modify index fun s => { s with node := s.node.map f } }

def modifyOutput (a : Arena β) (v : Value) (f : Output → Output) : Arena β :=
  a.modifyNode v.node.index fun n => n.modifyOutput v.port f

/-- A node put into the slot that was vacated last, or into a new one. -/
def allocate (a : Arena β) (n : Node β) : Arena β × NodeId :=
  match a.free with
  | index :: free =>
    ({ a with
        slots := a.slots.modify index fun s => { s with pins := 0, node := some n }
        free
        live := a.live + 1
        version := a.version + 1 },
      ⟨index, (a.slots[index]?.map Slot.generation).getD 0⟩)
  | [] =>
    ({ a with
        slots := a.slots.push ⟨0, 0, some n⟩
        live := a.live + 1
        version := a.version + 1 },
      ⟨a.slots.size, 0⟩)

def addUse (a : Arena β) (v : Value) (u : Use) : Arena β :=
  a.modifyOutput v fun o => { o with uses := o.uses ++ [u] }

def removeUse (a : Arena β) (v : Value) (u : Use) : Arena β :=
  a.modifyOutput v fun o => { o with uses := o.uses.filter (· ≠ u) }

/-- The inputs of a node that has none yet. -/
def wire (a : Arena β) (id : NodeId) (inputs : List Value) : Arena β :=
  let a := inputs.zipIdx.foldl (fun a (v, port) => a.addUse v (id.input port)) a
  (a.modifyNode id.index fun n => { n with inputs }).bump

def readInstead (a : Arena β) (u : Use) (v : Value) : Arena β :=
  a.modifyNode u.node.index fun n => { n with inputs := n.inputs.set u.port v }

/-- All that reads one value made to read another. -/
def repoint (a : Arena β) (old new : Value) : Arena β :=
  let uses := a.uses old
  let a := a.modifyOutput old fun o => { o with uses := [] }
  let a := uses.foldl (fun a u => a.readInstead u new) a
  (a.modifyOutput new fun o => { o with uses := o.uses ++ uses }).bump

/-- A node with given outputs on values that are present, without inference. -/
def addVerbatim (a : Arena β) (op : Operation β) (inputs : List Value) (outputs : List Spec) :
    Except GraphError (Arena β × NodeId) :=
  match inputs.find? fun v => !a.hasOutput v with
  | some v => .error (.unknownOutput v)
  | none =>
    let (a, id) := a.allocate (.fresh op outputs "" .empty)
    let a := a.wire id inputs
    match op.kind with
    | .result => .ok ({ a with results := a.results ++ [id] }, id)
    | .parameter => .ok ({ a with parameters := a.parameters ++ [id] }, id)
    | _ => .ok (a, id)

def addParameter (a : Arena β) (name : String) (spec : Spec) : Arena β × NodeId :=
  let (a, id) := a.allocate (.fresh (Primitive.parameter spec) [spec] name .empty)
  ({ a with parameters := a.parameters ++ [id] }, id)

/-- A change of the node behind a handle. -/
def updateNode (a : Arena β) (id : NodeId) (f : Node β → Node β) :
    Except GraphError (Arena β) :=
  if a.contains id then .ok (a.modifyNode id.index f) else .error (.unknownNode id)

def rename (a : Arena β) (id : NodeId) (name : String) : Except GraphError (Arena β) :=
  a.updateNode id fun n => { n with name }

def annotate (a : Arena β) (id : NodeId) (key value : String) : Except GraphError (Arena β) :=
  a.updateNode id fun n => { n with annotations := n.annotations.insert key value }

/-- The annotations of several nodes together; of two values under a key the first counts. -/
def mergedAnnotations (a : Arena β) (sources : List NodeId) : Annotations :=
  sources.foldl (fun merged id =>
    ((a.node? id).map fun n => merged.merge n.annotations).getD merged) .empty

/-- Annotations of the sources added to every destination, whose own ones stay. -/
def copyAnnotations (a : Arena β) (sources destinations : List NodeId) :
    Except GraphError (Arena β) :=
  match (sources ++ destinations).find? fun id => !a.contains id with
  | some id => .error (.unknownNode id)
  | none =>
    let merged := a.mergedAnnotations sources
    .ok (destinations.foldl (fun a id => a.modifyNode id.index fun n =>
      { n with annotations := n.annotations.merge merged }) a)

/-- One more handle that keeps the node from being released, unless no more can be counted. -/
def pin (a : Arena β) (id : NodeId) : Except GraphError (Arena β) :=
  if a.contains id then
    if a.pins id < pinLimit then
      .ok { a with slots := a.slots.modify id.index fun s => { s with pins := s.pins + 1 } }
    else .error .overflow
  else .error (.unknownNode id)

end TensorGraph.Arena
