import TensorGraph.Operation

/-! # Inference rules

A rule takes an operation and the specs of its inputs to the specs of its outputs. Of a body it
sees an `Interface`: how many nodes it has and what its results are on given inputs.
-/

namespace TensorGraph

abbrev Inferred (α : Type) := Except InferError α

structure Interface where
  nodeCount : Nat
  infer : List Spec → Inferred (List Spec)

abbrev Rule := Operation Interface → List Spec → Inferred (List Spec)

namespace Inferred

/-- The value of an option, or the error that explains why there is none. -/
def ofOption {α : Type} (e : InferError) : Option α → Inferred α
  | some a => .ok a
  | none => .error e

/-- Success exactly if the condition holds. -/
def require (condition : Bool) (e : InferError) : Inferred Unit :=
  if condition then .ok () else .error e

/-- The position of an axis of a shape of that rank. -/
def axisOf (shape : Shape) (rank : Nat) (axis : Int) : Inferred Nat :=
  ofOption (.axisOfShape axis shape) (resolveAxis axis rank)

def broadcast (a b : Shape) : Inferred Shape :=
  match a.broadcast b with
  | .ok shape => .ok shape
  | .error (x, y) => .error (.broadcast a b x y)

/-- Indices are 32 or 64 bits wide. -/
def requireIndex (t : ElementType) : Inferred Unit := require t.isIndex (.indexType t)

end Inferred

end TensorGraph
