import TensorGraph.Pass.Pattern
import TensorGraph.Tensor.Fold

/-! # Constant folding

An operation that can be folded and reads constants only becomes the constant that it computes.
-/

namespace TensorGraph.ConstantFolding

def foldable : List Kind :=
  [.add, .subtract, .multiply, .reshape, .transpose, .squeeze, .unsqueeze, .convert]

def readsConstants : Guard :=
  ⟨"constant_inputs", fun g v => (g.node? v.node).any fun n =>
    n.inputs.all fun x => g.kind? x.node == some .constant⟩

def pattern : Pattern := ⟨.wrap 0 foldable [] readsConstants, 1⟩

def constant? (g : Graph) (v : Value) : Option Tensor := do (← g.node? v.node).op.constant?

/-- The constant that a node computes, if it can be folded. -/
def folded (g : Graph) (id : NodeId) : Attempt Tensor := do
  let n ← .ofOption (g.node? id)
  let operands ← .ofOption (n.inputs.mapM (constant? g))
  match n.op with
  | .primitive p => p.fold operands
  | .subgraph _ => throw .declined

def pass : PatternPass where
  name := "constant-folding"
  pattern
  rewrite g m := Staging.toPlan do
    let folded ← Staging.ofAttempt (folded g m.root.node)
    let constant ← Staging.makeValue g (Primitive.constant folded) []
    Staging.inherit [m.root.node]
    Staging.replace (m.root.node.output 0) constant

end TensorGraph.ConstantFolding
