import TensorGraph.Graph.Annotations
import TensorGraph.Inference.Capability

/-! # Graphs

A dataflow graph is an arena of slots. Every node lists the values it reads, and every output
lists the inputs that read it. The bodies of subgraphs are graphs in turn: `Arena` leaves their
type open, and `Body` closes it.
-/

namespace TensorGraph

structure Output where
  spec : Spec
  uses : List Use

structure Node (β : Type) where
  op : Operation β
  inputs : List Value
  outputs : List Output
  name : String
  annotations : Annotations

structure Slot (β : Type) where
  generation : UInt32
  pins : UInt32
  node : Option (Node β)

structure Arena (β : Type) where
  slots : Array (Slot β)
  /-- Vacant slots, the next one to be taken first. -/
  free : List Nat
  parameters : List NodeId
  results : List NodeId
  live : Nat
  version : Nat
  table : CapabilityTable

/-- The most pins that a slot can count. -/
def pinLimit : Nat := UInt32.size - 1

/-- One pin less, if there is one. -/
def dropPin (pins : UInt32) : UInt32 := if pins = 0 then 0 else pins - 1

/-- What a subgraph stands for: a graph with parameters and results of its own. -/
inductive Body where
  | mk (graph : Arena Body)

abbrev Graph := Arena Body

variable {β γ : Type}

namespace Node

def kind (n : Node β) : Kind := n.op.kind

def map (f : β → γ) (n : Node β) : Node γ := { n with op := n.op.map f }

/-- A node that reads nothing yet, with outputs that nothing reads. -/
def fresh (op : Operation β) (outputs : List Spec) (name : String) (annotations : Annotations) :
    Node β :=
  { op, inputs := [], outputs := outputs.map fun spec => ⟨spec, []⟩, name, annotations }

def specs (n : Node β) : List Spec := n.outputs.map Output.spec

def isUnused (n : Node β) : Bool := n.outputs.all fun o => o.uses.isEmpty

def isAnchor (n : Node β) : Bool := n.kind.isAnchor

def modifyOutput (n : Node β) (port : Nat) (f : Output → Output) : Node β :=
  { n with outputs := n.outputs.modify port f }

end Node

def Slot.map (f : β → γ) (s : Slot β) : Slot γ := { s with node := s.node.map (Node.map f) }

namespace Arena

def map (f : β → γ) (a : Arena β) : Arena γ := { a with slots := a.slots.map (Slot.map f) }

def empty (table : CapabilityTable) : Arena β :=
  { slots := #[], free := [], parameters := [], results := [], live := 0, version := 0, table }

/-- The slot of a handle, unless it was released since. -/
def slot? (a : Arena β) (id : NodeId) : Option (Slot β) :=
  a.slots[id.index]?.filter fun s => s.generation == id.generation

def node? (a : Arena β) (id : NodeId) : Option (Node β) := (a.slot? id).bind Slot.node

def contains (a : Arena β) (id : NodeId) : Bool := (a.node? id).isSome

def node (a : Arena β) (id : NodeId) : Except GraphError (Node β) :=
  match a.node? id with
  | some n => .ok n
  | none => .error (.unknownNode id)

def nodeIds (a : Arena β) : List NodeId :=
  a.slots.toList.zipIdx.filterMap fun (s, i) => s.node.map fun _ => ⟨i, s.generation⟩

def kind? (a : Arena β) (id : NodeId) : Option Kind := (a.node? id).map Node.kind

def output? (a : Arena β) (v : Value) : Option Output := do
  (← a.node? v.node).outputs[v.port]?

def spec? (a : Arena β) (v : Value) : Option Spec := (a.output? v).map Output.spec

def hasOutput (a : Arena β) (v : Value) : Bool := (a.output? v).isSome

/-- The inputs that read a value, in the order in which they were attached. -/
def uses (a : Arena β) (v : Value) : List Use := ((a.output? v).map Output.uses).getD []

def producer? (a : Arena β) (u : Use) : Option Value := do
  (← a.node? u.node).inputs[u.port]?

def pins (a : Arena β) (id : NodeId) : Nat := ((a.slot? id).map fun s => s.pins.toNat).getD 0

def specs (a : Arena β) (values : List Value) : Except GraphError (List Spec) :=
  values.mapM fun v => match a.spec? v with
    | some spec => .ok spec
    | none => .error (.unknownOutput v)

def resultSpecs (a : Arena β) : List Spec :=
  a.results.filterMap fun id => do a.spec? (← (← a.node? id).inputs.head?)

end Arena

end TensorGraph
