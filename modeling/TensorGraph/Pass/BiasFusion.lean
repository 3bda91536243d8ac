import TensorGraph.Pass.Pattern
import TensorGraph.Tensor.Fold

/-! # Bias fusion

A constant added to a product with weights becomes the bias of that product. If the product is
rescaled before the addition, the rescaling follows the product with the bias.
-/

namespace TensorGraph.BiasFusion

def data : Term := .input 0 .always

def weights : Term := .input 1 .isStatic

def product : Term :=
  .wrap 2 [.fullyConnected] [data, weights] (.and (.consumerCount 1) .hasRank)

/-- The number of channels: the last extent of the product, if it is known. -/
def channels? (g : Graph) (product : Value) : Option Nat := do
  (← (← (← g.spec? product).shape.extents?).getLast?).size?

/-- A constant fits as a bias if its last axis holds all its values, one for each channel. With
`perChannel`, its other axes have length one. -/
def fits (bias : Tensor) (channels : Nat) (perChannel : Bool) : Bool :=
  let count := bias.data.size
  (!perChannel || count == 1 || bias.sizes.countP (1 < ·) == 1)
    && bias.sizes.getLast? == some channels && channels == count

/-- A bias of one axis: the constant itself, or the constant flattened. -/
def stageBias (g : Graph) (product bias : Value) (perChannel : Bool) : Staging Operand := do
  let value ← Staging.ofOption ((g.node? bias.node).bind fun n => n.op.constant?)
  let channels ← Staging.ofOption (channels? g product)
  Staging.check (fits value channels perChannel)
  if value.sizes.length < 2 then return bias
  match ← Staging.ofAttempt ((Primitive.reshape [-1] true).fold [value]).optional with
  | some flat => Staging.makeValue g (Primitive.constant flat) []
  | none => Staging.makeValue g (Primitive.reshape [-1] true) [bias]

def nameOf (g : Graph) (v : Value) : String := ((g.node? v.node).map Node.name).getD ""

def plainBias : Term := .input 3 .isStatic

def plainPattern : Pattern := ⟨.wrap 4 [.add] [product, plainBias] .always, 5⟩

/-- Turns `product + bias` into the product with that bias. -/
def plain : PatternPass where
  name := "fc-bias-fusion"
  pattern := plainPattern
  rewrite g m := Staging.toPlan do
    let data ← Staging.ofOption (m.value? 0)
    let weights ← Staging.ofOption (m.value? 1)
    let product ← Staging.ofOption (m.value? 2)
    let bias ← Staging.ofOption (m.value? 3)
    let staged ← stageBias g product bias false
    let fused ← Staging.make g Primitive.fullyConnected [data, weights, staged]
    Staging.rename fused (nameOf g m.root)
    Staging.inherit [product.node, m.root.node]
    Staging.replace m.root (.staged fused 0)

def scale : Term := .input 3 .isStatic

def scaled : Term := .wrap 4 [.multiply] [product, scale] .always

def scaledBias : Term := .input 5 .isStatic

def scaledPattern : Pattern := ⟨.wrap 6 [.add] [scaled, scaledBias] .always, 7⟩

/-- Turns `product * scale + bias` into the product with that bias, times the scale. -/
def quantized : PatternPass where
  name := "quantized-fc-bias-fusion"
  pattern := scaledPattern
  rewrite g m := Staging.toPlan do
    let data ← Staging.ofOption (m.value? 0)
    let weights ← Staging.ofOption (m.value? 1)
    let product ← Staging.ofOption (m.value? 2)
    let scale ← Staging.ofOption (m.value? 3)
    let scaled ← Staging.ofOption (m.value? 4)
    let bias ← Staging.ofOption (m.value? 5)
    let staged ← stageBias g product bias true
    let fused ← Staging.makeValue g Primitive.fullyConnected [data, weights, staged]
    let rescaled ← Staging.make g Primitive.multiply [fused, scale]
    Staging.rename rescaled (nameOf g m.root)
    Staging.inherit [product.node, scaled.node, m.root.node]
    Staging.replace m.root (.staged rescaled 0)

end TensorGraph.BiasFusion
