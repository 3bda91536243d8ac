import TensorGraph.Inference.Basic

/-! # Entry by entry

Specs of the operations that combine or change entries one by one.
-/

namespace TensorGraph.Inferred

/-- Two operands of one element type, broadcast to one shape. -/
def paired (a b : Spec) : Inferred Shape := do
  require (a.elementType == b.elementType) (.operandTypes a.elementType b.elementType)
  broadcast a.shape b.shape

def arithmetic (a b : Spec) : Inferred Spec := do
  return ⟨a.elementType, ← paired a b⟩

def comparison (a b : Spec) : Inferred Spec := do
  return ⟨.boolean, ← paired a b⟩

def select (condition first second : Spec) : Inferred Spec := do
  require (condition.elementType == .boolean) (.conditionType condition.elementType)
  require (first.elementType == second.elementType)
    (.branchTypes first.elementType second.elementType)
  let shape ← broadcast condition.shape first.shape
  return ⟨first.elementType, ← broadcast shape second.shape⟩

def softmax (axis : Int) (input : Spec) : Inferred Spec := do
  require input.elementType.isFloat (.softmaxType input.elementType)
  match input.shape with
  | .unranked => return input
  | .ranked extents =>
    let _ ← axisOf input.shape extents.length axis
    return input

def quantize (scale : Float) (output : ElementType) (input : Spec) : Inferred Spec := do
  require input.elementType.isFloat (.quantizeInput input.elementType)
  require output.isQuantized (.quantizeOutput output)
  require (scale > 0) .quantizationScale
  return ⟨output, input.shape⟩

def dequantize (scale : Float) (input : Spec) : Inferred Spec := do
  require input.elementType.isInteger (.dequantizeInput input.elementType)
  require (scale > 0) .quantizationScale
  return ⟨.f32, input.shape⟩

end TensorGraph.Inferred
