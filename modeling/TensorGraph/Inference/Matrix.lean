import TensorGraph.Inference.Basic

/-! # Matrix products

Specs of matrix products over batches and of products with transposed weights.
-/

namespace TensorGraph.Inferred

/-- Integer products are summed up in 32 bits, others keep the type of their operands. -/
def productType (a b : ElementType) : Inferred ElementType := do
  if a.isInteger && b.isInteger then return .i32
  require (a == b) (.operandTypes a b)
  return a

/-- The batch axes, the rows and the columns. -/
def matrixAxes? (extents : List Extent) : Option (List Extent × Extent × Extent) :=
  match extents.reverse with
  | columns :: rows :: batch => some (batch.reverse, rows, columns)
  | _ => none

def requireContraction (a b : Extent) : Inferred Unit :=
  require (a.merge b).isSome (.contraction a b)

def matMul (transposeLeft transposeRight : Bool) (left right : Spec) : Inferred Spec := do
  let elementType ← productType left.elementType right.elementType
  match left.shape, right.shape with
  | .ranked a, .ranked b =>
    match matrixAxes? a, matrixAxes? b with
    | some (batchA, rowsA, columnsA), some (batchB, rowsB, columnsB) =>
      let (rows, innerA) := if transposeLeft then (columnsA, rowsA) else (rowsA, columnsA)
      let (innerB, columns) := if transposeRight then (columnsB, rowsB) else (rowsB, columnsB)
      requireContraction innerA innerB
      match ← broadcast (.ranked batchA) (.ranked batchB) with
      | .ranked batch => return ⟨elementType, .ranked (batch ++ [rows, columns])⟩
      | .unranked => return ⟨elementType, .ranked [rows, columns]⟩
    | _, _ => throw (.matrixRank left.shape right.shape)
  | _, _ => return ⟨elementType, .unranked⟩

/-- A bias of known size must have one value for each output channel. -/
def requireBias (channels : Extent) (bias : Option Spec) : Inferred Unit :=
  match bias.bind fun b => b.shape.elementCount?, channels with
  | some count, .known n => require (count == n) (.biasCount count n)
  | _, _ => return ()

def fullyConnected (data weights : Spec) (bias : Option Spec) : Inferred Spec := do
  let elementType ← productType data.elementType weights.elementType
  match weights.shape with
  | .unranked => throw .unrankedWeights
  | .ranked [channels, inner] =>
    requireBias channels bias
    match data.shape with
    | .unranked => return ⟨elementType, .unranked⟩
    | .ranked extents =>
      let last ← ofOption .scalarData extents.getLast?
      requireContraction last inner
      return ⟨elementType, .ranked (extents.dropLast ++ [channels])⟩
  | .ranked _ => throw (.weightsRank weights.shape)

end TensorGraph.Inferred
