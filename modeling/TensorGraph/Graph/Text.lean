import TensorGraph.Graph.Body

/-! # Graphs as text

One line for each node in topological order; the lines of a body follow the line of its node,
indented by one step more.
-/

namespace TensorGraph

/-- A body as text needs it: its number of nodes, and its lines at a given indentation. -/
structure Listing where
  nodeCount : Nat
  lines : Nat → List String

def indentation (depth : Nat) : String := String.join (List.replicate depth "  ")

def joined (items : List String) : String := ", ".intercalate items

def Annotations.text (a : Annotations) : String :=
  "\x7b" ++ joined (a.entries.map fun e => e.1 ++ "=" ++ e.2) ++ "\x7d"

/-- The operation, its inputs, the specs of its outputs, the name and the annotations. -/
def Node.line (n : Node Listing) (id : NodeId) : String :=
  let outputs := if n.outputs.isEmpty then "" else " -> " ++ joined (n.specs.map Spec.text)
  let name := if n.name.isEmpty then "" else " \"" ++ n.name ++ "\""
  let remarks := if n.annotations.entries.isEmpty then "" else " " ++ n.annotations.text
  id.text ++ " = " ++ n.op.text Listing.nodeCount ++ "(" ++ joined (n.inputs.map Value.text) ++ ")"
    ++ outputs ++ name ++ remarks

namespace Arena

def lines (a : Arena Listing) (depth : Nat) : List String :=
  match a.topologicalOrder with
  | .error e => [indentation depth ++ "<invalid graph: " ++ e.message ++ ">"]
  | .ok order => order.flatMap fun id =>
    match a.node? id with
    | none => []
    | some n =>
      (indentation depth ++ n.line id) ::
        ((n.op.body?.map fun body => body.lines (depth + 1)).getD [])

def listing (a : Arena Listing) : Listing := ⟨a.live, a.lines⟩

end Arena

namespace Graph

/-- Every line ends with a line feed. -/
def text (g : Graph) : String :=
  String.join (((g.map (Body.fold Arena.listing)).lines 0).map (· ++ "\n"))

def operationText (op : Operation Body) : String := op.text fun body => body.graph.live

end Graph

end TensorGraph
