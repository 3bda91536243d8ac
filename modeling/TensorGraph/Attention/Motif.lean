import TensorGraph.Pattern.Match

/-! # Attention motifs

Attention multiplies queries by keys, turns the scores into probabilities by a softmax over the
last axis, and multiplies those by values. Elementwise steps, selections and reshapes may stand
before and after the softmax. Every motif is rooted at the second product.
-/

namespace TensorGraph.Attention

inductive Variant where
  /-- Both products are taken on quantized operands. -/
  | quantized
  /-- The keys are transposed beforehand, and the first product transposes them again. -/
  | preTransposed
  | plain
deriving DecidableEq

def Variant.name : Variant → String
  | quantized => "quantized"
  | preTransposed => "pre-transposed"
  | plain => "plain"

namespace Motif

def isLastAxis (axis : Int) (shape : Shape) : Bool :=
  shape.rank?.any fun rank => 0 < rank && shape.resolveAxis? axis == some (rank - 1)

def softmaxesLastAxis (g : Graph) (v : Value) : Bool :=
  match g.node? v.node, g.spec? v with
  | some ⟨.primitive (.softmax axis), _, _, _, _⟩, some spec => isLastAxis axis spec.shape
  | _, _ => false

def lastAxis : Guard := ⟨"softmax_last_axis", softmaxesLastAxis⟩

def transposesRight : Operation Body → Bool
  | .primitive (.matMul _ right) => right
  | _ => false

def isRankedFloat : Guard := .and .isFloat .hasRank

def elementwise : List Kind := [.add, .subtract, .multiply]

/-- What matches `base`, or one step on what matches `inner`. -/
def step (base inner : Term) : Builder Term := do
  let right ← Builder.anyInput
  let onLeft ← Builder.wrap elementwise [inner, right] .always
  let left ← Builder.anyInput
  let onRight ← Builder.wrap elementwise [left, inner] .always
  let condition ← Builder.anyInput
  let other ← Builder.anyInput
  let whenTrue ← Builder.wrap [.select] [condition, inner, other] .always
  let condition ← Builder.anyInput
  let other ← Builder.anyInput
  let whenFalse ← Builder.wrap [.select] [condition, other, inner] .always
  let reshaped ← Builder.wrap [.reshape] [inner] .always
  Builder.oneOf [onLeft, onRight, whenTrue, whenFalse, reshaped, base]

/-- At most so many steps on what matches `base`. -/
def chain (base : Term) : Nat → Builder Term
  | 0 => return base
  | count + 1 => do step base (← chain base count)

/-- Probabilities from scores: at most four steps, the softmax, and at most two steps. -/
def probabilities (scores : Term) : Builder Term := do
  let scaled ← chain scores 4
  let softmax ← Builder.wrap [.softmax] [scaled] lastAxis
  chain softmax 2

def maybeTransposed (source : Term) : Builder Term :=
  Builder.optional [.transpose] [source] .always

/-- The keys, transposed and then scaled. With `preTransposed` the transpose has to be there. -/
def keys (preTransposed : Bool) : Builder Term := do
  let source ← Builder.anyInput
  let transposed ←
    if preTransposed then Builder.wrap [.transpose] [source] .always else maybeTransposed source
  let scale ← Builder.anyInput
  Builder.optional [.multiply] [transposed, scale] .always

def floating (preTransposed : Bool) : Builder Term := do
  let query ← maybeTransposed (← Builder.anyInput)
  let key ← keys preTransposed
  let guard :=
    if preTransposed then .and isRankedFloat (.onOperation "transpose_b" transposesRight)
    else isRankedFloat
  let scores ← Builder.wrap [.matMul] [query, key] guard
  let weights ← probabilities scores
  let value ← maybeTransposed (← Builder.anyInput)
  Builder.wrap [.matMul] [weights, value] isRankedFloat

/-- A quantized value, perhaps transposed after that. -/
def quantizedOperand : Builder Term := do
  let source ← Builder.anyInput
  maybeTransposed (← Builder.wrap [.quantize] [source] .always)

def quantized : Builder Term := do
  let query ← quantizedOperand
  let key ← quantizedOperand
  let scores ← Builder.wrap [.matMul] [query, key] .hasRank
  let restored ← Builder.wrap [.dequantize] [scores] .always
  let weights ← probabilities restored
  let requantized ← Builder.wrap [.quantize] [weights] .always
  let value ← quantizedOperand
  Builder.wrap [.matMul] [requantized, value] .hasRank

end Motif

def Variant.motif : Variant → Pattern
  | quantized => Motif.quantized.finish
  | preTransposed => (Motif.floating true).finish
  | plain => (Motif.floating false).finish

end TensorGraph.Attention
