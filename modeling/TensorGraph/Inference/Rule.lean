import TensorGraph.Inference.Elementwise
import TensorGraph.Inference.Indexing
import TensorGraph.Inference.Layout
import TensorGraph.Inference.Matrix

/-! # Standard rules

One rule for every kind. A rule that needs parameters applies only to the operations that have
them; the others look at their inputs alone.
-/

namespace TensorGraph.Rule

open Inferred

/-- A rule for one output, from the first input and the parameters of a primitive. -/
def ofFirst (rule : Primitive → Option (Spec → Inferred Spec)) : Rule
  | .primitive p, inputs =>
    match rule p, inputs with
    | some f, input :: _ => do return [← f input]
    | some _, [] => throw .missingInput
    | none, _ => throw (.inapplicable p.kind)
  | .subgraph _, _ => throw (.inapplicable .subgraph)

def parameter : Rule
  | .primitive (.parameter spec), _ => return [spec]
  | op, _ => throw (.inapplicable op.kind)

def constant : Rule
  | .primitive (.constant value), _ => return [value.spec]
  | op, _ => throw (.inapplicable op.kind)

def result : Rule := fun _ _ => return []

def arithmetic : Rule
  | _, [a, b] => do return [← Inferred.arithmetic a b]
  | _, _ => throw (.operands "two operands")

def comparison : Rule
  | _, [a, b] => do return [← Inferred.comparison a b]
  | _, _ => throw (.operands "two operands")

def matMul : Rule
  | .primitive (.matMul left right), [a, b] => do return [← Inferred.matMul left right a b]
  | .primitive (.matMul _ _), _ => throw (.operands "two operands")
  | op, _ => throw (.inapplicable op.kind)

def fullyConnected : Rule
  | _, [data, weights] => do return [← Inferred.fullyConnected data weights none]
  | _, [data, weights, bias] => do return [← Inferred.fullyConnected data weights (some bias)]
  | _, _ => throw (.operands "data, weights and an optional bias")

def transpose : Rule := ofFirst fun
  | .transpose perm => some (Inferred.transpose perm)
  | _ => none

def reshape : Rule := ofFirst fun
  | .reshape target specialZero => some (Inferred.reshape target specialZero)
  | _ => none

def softmax : Rule := ofFirst fun
  | .softmax axis => some (Inferred.softmax axis)
  | _ => none

def convert : Rule := ofFirst fun
  | .convert elementType => some fun input => return ⟨elementType, input.shape⟩
  | _ => none

def quantize : Rule := ofFirst fun
  | .quantize scale _ output => some (Inferred.quantize scale output)
  | _ => none

def dequantize : Rule := ofFirst fun
  | .dequantize scale _ => some (Inferred.dequantize scale)
  | _ => none

def unique : Rule
  | .primitive (.unique indexType axis), input :: _ => Inferred.unique indexType axis input
  | .primitive (.unique _ _), [] => throw .missingInput
  | op, _ => throw (.inapplicable op.kind)

def shapeOf : Rule := ofFirst fun
  | .shapeOf output => some (Inferred.shapeOf output)
  | _ => none

def squeeze : Rule := ofFirst fun
  | .squeeze axes => some (Inferred.squeeze axes)
  | _ => none

def unsqueeze : Rule := ofFirst fun
  | .unsqueeze axes => some (Inferred.unsqueeze axes)
  | _ => none

def topK : Rule
  | .primitive (.topK axis _ indexType), inputs => do
    requireIndex indexType
    match inputs with
    | [data, count] => Inferred.topK axis indexType data count
    | _ => throw (.operands "data and k")
  | op, _ => throw (.inapplicable op.kind)

def concat : Rule
  | .primitive (.concat axis), first :: rest => do return [← Inferred.concat axis first rest]
  | .primitive (.concat _), [] => throw .missingInput
  | op, _ => throw (.inapplicable op.kind)

def select : Rule
  | _, [condition, first, second] => do return [← Inferred.select condition first second]
  | _, _ => throw (.operands "condition, then and else")

def slice : Rule := ofFirst fun
  | .slice start stop step axis => some (Inferred.slice start stop step axis)
  | _ => none

def nonZero : Rule := ofFirst fun
  | .nonZero output => some (Inferred.nonZero output)
  | _ => none

def gather : Rule
  | .primitive (.gather axis), [data, indices] => do return [← Inferred.gather axis data indices]
  | .primitive (.gather _), _ => throw (.operands "data and indices")
  | op, _ => throw (.inapplicable op.kind)

def range : Rule
  | .primitive (.range output), bounds => do return [← Inferred.range output bounds]
  | op, _ => throw (.inapplicable op.kind)

def reduce : Rule := ofFirst fun
  | .reduceMin axes keepAxes | .reduceMax axes keepAxes => some (Inferred.reduce axes keepAxes)
  | _ => none

/-- The outputs of a subgraph are the results of its body on the given inputs. -/
def subgraph : Rule
  | .subgraph body, inputs => body.infer inputs
  | op, _ => throw (.inapplicable op.kind)

end TensorGraph.Rule
