import TensorGraph.Inference.Basic

/-! # Selections and reductions

Specs of the operations that pick, order, join or count entries along an axis.
-/

namespace TensorGraph.Inferred

/-- Distinct values, first positions, positions of all elements, counts. -/
def unique (indexType : ElementType) (axis : Option Int) (input : Spec) :
    Inferred (List Spec) := do
  requireIndex indexType
  let (values, reverse) ← match axis, input.shape with
    | none, shape => do
      let reverse := match shape.elementCount? with
        | some count => Shape.ofSizes [count]
        | none => .ofRank 1
      pure (Shape.ofRank 1, reverse)
    | some _, .unranked => pure (.unranked, .ofRank 1)
    | some axis, .ranked extents => do
      let i ← axisOf input.shape extents.length axis
      pure (.ranked (extents.set i .unknown), .ranked [extents.getD i .unknown])
  return [⟨input.elementType, values⟩, ⟨indexType, .ofRank 1⟩, ⟨indexType, reverse⟩,
    ⟨indexType, .ofRank 1⟩]

def shapeOf (output : ElementType) (input : Spec) : Inferred Spec := do
  requireIndex output
  match input.shape.rank? with
  | some rank => return ⟨output, .ofSizes [rank]⟩
  | none => return ⟨output, .ofRank 1⟩

/-- The shape holds one element, or may. -/
def mayBeSingle (shape : Shape) : Bool := shape.elementCount?.all (· == 1)

/-- The first so many entries along an axis, in order, and where they came from. -/
def topK (axis : Int) (indexType : ElementType) (data count : Spec) : Inferred (List Spec) := do
  require count.elementType.isInteger (.sortCountType count.elementType)
  require (mayBeSingle count.shape) (.sortCountShape count.shape)
  let shape ← match data.shape with
    | .unranked => pure .unranked
    | .ranked extents => do
      let i ← axisOf data.shape extents.length axis
      pure (.ranked (extents.set i .unknown))
  return [⟨data.elementType, shape⟩, ⟨indexType, shape⟩]

/-- The length along the joined axis with one more extent, while it is known. -/
def joinedLength (length : Option Nat) (e : Extent) : Option Nat := do
  return (← length) + (← e.size?)

/-- The extent of one axis. Along the joined axis the length is added up instead. -/
def mergeAxis (joined : Nat) (length : Option Nat) : (Extent × Extent) × Nat → Inferred Extent
  | ((x, y), i) =>
    if i = joined then do
      require ((joinedLength length y).all (· < countLimit)) .overflow
      return x
    else ofOption (.concatExtents i) (x.merge y)

/-- Extents merged axis by axis from the left. -/
def mergeExcept (joined : Nat) (length : Option Nat) (a b : List Extent) :
    Inferred (List Extent) := (a.zip b).zipIdx.mapM (mergeAxis joined length)

/-- The extents so far and the length along the joined axis, while it is known. -/
def concatStep (joined rank : Nat) (state : List Extent × Option Nat) (input : Spec) :
    Inferred (List Extent × Option Nat) := do
  match input.shape with
  | .unranked => return (state.1, none)
  | .ranked extents =>
    require (extents.length == rank) .concatRanks
    let merged ← mergeExcept joined state.2 state.1 extents
    return (merged, joinedLength state.2 (extents.getD joined .unknown))

def concat (axis : Int) (first : Spec) (rest : List Spec) : Inferred Spec := do
  require (rest.all fun input => input.elementType == first.elementType) .concatTypes
  match (first :: rest).findSome? fun input => input.shape.rank? with
  | none => return ⟨first.elementType, .unranked⟩
  | some rank =>
    let joined ← ofOption (.axisRange axis) (resolveAxis axis rank)
    let (extents, length) ← (first :: rest).foldlM (concatStep joined rank)
      (List.replicate rank .unknown, some 0)
    let extent := match length with
      | some n => .known n
      | none => .unknown
    return ⟨first.elementType, .ranked (extents.set joined extent)⟩

/-- What a signed word of 64 bits can hold: from `-2 ^ 63` to before `2 ^ 63`. -/
def IsWord (x : Int) : Prop := -9223372036854775808 ≤ x ∧ x < 9223372036854775808

instance (x : Int) : Decidable (IsWord x) := inferInstanceAs (Decidable (_ ∧ _))

def word? (x : Int) : Option Int := if IsWord x then some x else none

/-- A bound of a slice: negative ones count from the end, and all stay between two limits. -/
def sliceBound? (size low high bound : Int) : Option Int := do
  let counted ← if bound < 0 then word? (bound + size) else some bound
  return max low (min high counted)

/-- How often a stride is taken over a span, rounded up, by division that rounds towards zero. -/
def strides? (span stride : Int) : Option Nat := do
  let sum ← word? (span + stride)
  let sum ← word? (sum - 1)
  return (Int.tdiv sum (← word? stride)).toNat

/-- The number of positions from `start`, by `step`, that lie before `stop`. Every number on the
way there is held in a word. -/
def sliceLength? (size : Nat) (start stop step : Int) : Option Nat := do
  let size ← word? size
  if 0 < step then
    let first ← sliceBound? size 0 size start
    let last ← sliceBound? size 0 size stop
    if first < last then strides? (← word? (last - first)) step else return 0
  else
    let high ← word? (size - 1)
    let first ← sliceBound? size (-1) high start
    let last ← sliceBound? size (-1) high stop
    if last < first then strides? (← word? (first - last)) (-step) else return 0

def slicedExtent (start stop step : Int) : Extent → Inferred Extent
  | .known n => (ofOption .overflow (sliceLength? n start stop step)).map .known
  | .unknown => .ok .unknown

def slice (start stop step axis : Int) (input : Spec) : Inferred Spec := do
  require (step ≠ 0) .sliceStep
  match input.shape with
  | .unranked => return input
  | .ranked extents =>
    let i ← axisOf input.shape extents.length axis
    let extent ← slicedExtent start stop step (extents.getD i .unknown)
    return ⟨input.elementType, .ranked (extents.set i extent)⟩

/-- One row for each axis of the input and one column for each entry that is not zero. -/
def nonZero (output : ElementType) (input : Spec) : Inferred Spec := do
  requireIndex output
  match input.shape.rank? with
  | some rank => return ⟨output, .ranked [.known rank, .unknown]⟩
  | none => return ⟨output, .ofRank 2⟩

def gather (axis : Int) (data indices : Spec) : Inferred Spec := do
  require indices.elementType.isInteger (.gatherIndices indices.elementType)
  match data.shape, indices.shape with
  | .ranked extents, .ranked inner =>
    let i ← axisOf data.shape extents.length axis
    return ⟨data.elementType, .ranked (extents.take i ++ inner ++ extents.drop (i + 1))⟩
  | _, _ => return ⟨data.elementType, .unranked⟩

def range (output : ElementType) (bounds : List Spec) : Inferred Spec := do
  bounds.forM fun bound => require (mayBeSingle bound.shape) (.rangeBounds bound.shape)
  return ⟨output, .ofRank 1⟩

def reduce (axes : List Int) (keepAxes : Bool) (input : Spec) : Inferred Spec := do
  match input.shape with
  | .unranked => return ⟨input.elementType, .unranked⟩
  | .ranked extents =>
    let positions ← axes.mapM (axisOf input.shape extents.length)
    if keepAxes then
      return ⟨input.elementType, .ranked (extents.zipIdx.map fun (e, i) =>
        if i ∈ positions then .known 1 else e)⟩
    else return ⟨input.elementType, .ranked (dropPositions positions extents)⟩

end TensorGraph.Inferred
