/-! # Handles

A node is named by its slot and by the generation of that slot, so that a handle to a released
node never means a later one. A value is one output of a node, a use is one input of a node.
-/

namespace TensorGraph

structure NodeId where
  index : Nat
  generation : UInt32
deriving DecidableEq

/-- One output of a node. -/
structure Value where
  node : NodeId
  port : Nat
deriving DecidableEq

/-- One input of a node. -/
structure Use where
  node : NodeId
  port : Nat
deriving DecidableEq

namespace NodeId

def output (id : NodeId) (port : Nat) : Value := ⟨id, port⟩

def input (id : NodeId) (port : Nat) : Use := ⟨id, port⟩

/-- By slot, then by generation. -/
def before (a b : NodeId) : Bool :=
  a.index < b.index || (a.index == b.index && a.generation < b.generation)

def text (id : NodeId) : String := "%" ++ toString id.index

end NodeId

def Value.text (v : Value) : String := v.node.text ++ ":" ++ toString v.port

def Use.text (u : Use) : String := u.node.text ++ "#" ++ toString u.port

end TensorGraph
