import TensorGraph.Tensor.Basic

/-! # Primitive operations

The closed set of operations that stand for themselves, with their parameters and their text.
-/

namespace TensorGraph

/-- Which entries a sort puts first. -/
inductive SortMode where
  | largest
  | smallest
deriving DecidableEq

def SortMode.name : SortMode → String
  | largest => "Max"
  | smallest => "Min"

inductive Primitive where
  | parameter (spec : Spec)
  | constant (value : Tensor)
  /-- A sink: it consumes one value and produces none. -/
  | result
  | add
  | subtract
  | multiply
  | equal
  | notEqual
  | matMul (transposeLeft transposeRight : Bool)
  /-- The product of data and transposed weights, with a bias over the last axis if given. -/
  | fullyConnected
  | transpose (perm : List Nat)
  /-- In the target, -1 is inferred and, if `specialZero` is set, 0 copies the input's extent. -/
  | reshape (target : List Int) (specialZero : Bool)
  | softmax (axis : Int)
  | convert (elementType : ElementType)
  | quantize (scale : Float) (zeroPoint : Int) (output : ElementType)
  | dequantize (scale : Float) (zeroPoint : Int)
  /-- Distinct values, first positions, positions of all elements, counts. -/
  | unique (indexType : ElementType) (axis : Option Int)
  | shapeOf (output : ElementType)
  /-- No axes stands for all axes of length one. -/
  | squeeze (axes : List Int)
  | unsqueeze (axes : List Int)
  | topK (axis : Int) (mode : SortMode) (indexType : ElementType)
  | concat (axis : Int)
  | select
  | slice (start stop step axis : Int)
  | nonZero (output : ElementType)
  | gather (axis : Int)
  | range (output : ElementType)
  | reduceMin (axes : List Int) (keepAxes : Bool)
  | reduceMax (axes : List Int) (keepAxes : Bool)

namespace Primitive

def kind : Primitive → Kind
  | parameter _ => .parameter
  | constant _ => .constant
  | result => .result
  | add => .add
  | subtract => .subtract
  | multiply => .multiply
  | equal => .equal
  | notEqual => .notEqual
  | matMul _ _ => .matMul
  | fullyConnected => .fullyConnected
  | transpose _ => .transpose
  | reshape _ _ => .reshape
  | softmax _ => .softmax
  | convert _ => .convert
  | quantize _ _ _ => .quantize
  | dequantize _ _ => .dequantize
  | unique _ _ => .unique
  | shapeOf _ => .shapeOf
  | squeeze _ => .squeeze
  | unsqueeze _ => .unsqueeze
  | topK _ _ _ => .topK
  | concat _ => .concat
  | select => .select
  | slice _ _ _ _ => .slice
  | nonZero _ => .nonZero
  | gather _ => .gather
  | range _ => .range
  | reduceMin _ _ => .reduceMin
  | reduceMax _ _ => .reduceMax

theorem kind_ne_subgraph (p : Primitive) : p.kind ≠ .subgraph := by
  cases p <;> exact Kind.noConfusion

/-- Scales are written without an exponent and without a fractional part of zero. -/
def scaleFormat : NumberFormat := ⟨none, false⟩

def boolText (b : Bool) : String := if b then "true" else "false"

/-- The parameters as items of the form `key=value`. -/
def parameterTexts : Primitive → List String
  | parameter spec => [spec.text]
  | constant value => [value.text]
  | matMul left right =>
    ["transpose_a=" ++ boolText left, "transpose_b=" ++ boolText right]
  | transpose perm => ["perm=" ++ natsText perm]
  | reshape target specialZero =>
    ["target=" ++ intsText target, "special_zero=" ++ boolText specialZero]
  | softmax axis | concat axis | gather axis => ["axis=" ++ toString axis]
  | convert elementType => ["to=" ++ elementType.name]
  | quantize scale zeroPoint output =>
    ["scale=" ++ scaleFormat.render scale, "zero_point=" ++ toString zeroPoint,
      "output=" ++ output.name]
  | dequantize scale zeroPoint =>
    ["scale=" ++ scaleFormat.render scale, "zero_point=" ++ toString zeroPoint]
  | unique indexType axis =>
    ("index_type=" ++ indexType.name) :: axis.toList.map fun a => "axis=" ++ toString a
  | shapeOf output | nonZero output | range output => ["output=" ++ output.name]
  | squeeze axes | unsqueeze axes => ["axes=" ++ intsText axes]
  | topK axis mode indexType =>
    ["axis=" ++ toString axis, "mode=" ++ mode.name, "index_type=" ++ indexType.name]
  | slice start stop step axis =>
    ["start=" ++ toString start, "stop=" ++ toString stop, "step=" ++ toString step,
      "axis=" ++ toString axis]
  | reduceMin axes keepAxes | reduceMax axes keepAxes =>
    ["axes=" ++ intsText axes, "keep_dims=" ++ boolText keepAxes]
  | result | add | subtract | multiply | equal | notEqual | fullyConnected | select => []

/-- The kind, followed by the parameters in brackets if it has any. -/
def text (p : Primitive) : String :=
  match p.parameterTexts with
  | [] => p.kind.name
  | items => p.kind.name ++ bracketed items

end Primitive

end TensorGraph
