import TensorGraph.Inference.Basic
import TensorGraph.Tensor.Fold

/-! # Changes of layout

Specs of the operations that keep the entries and change their axes.
-/

namespace TensorGraph.Inferred

def transpose (perm : List Nat) (input : Spec) : Inferred Spec := do
  require (isPermutation perm) (.notPermutation perm)
  match input.shape with
  | .unranked => return ⟨input.elementType, .ofRank perm.length⟩
  | .ranked extents =>
    require (extents.length == perm.length) (.permutationRank perm extents.length)
    return ⟨input.elementType, .ranked (perm.map fun axis => extents.getD axis .unknown)⟩

/-- The extent that a target item stands for; an inferred one is not known yet. -/
def targetExtent (shape : Shape) (specialZero : Bool) (item : Int) (axis : Nat) :
    Inferred Extent :=
  if item = -1 then return .unknown
  else if item = 0 && specialZero then
    match shape with
    | .unranked => return .unknown
    | .ranked extents => ofOption (.reshapeSource axis) extents[axis]?
  else return .known item.toNat

/-- The extents that are not inferred, if all of them are known. -/
def literalSizes? (target : List Int) (extents : List Extent) : Option (List Nat) :=
  ((target.zip extents).filter fun x => x.1 ≠ -1).mapM fun x => x.2.size?

/-- The product of the extents that are not inferred, if all of them are known. -/
def literalCount (target : List Int) (extents : List Extent) : Inferred (Option Nat) :=
  match literalSizes? target extents with
  | none => .ok none
  | some sizes => (ofOption .overflow (boundedProduct sizes)).map some

def reshape (target : List Int) (specialZero : Bool) (input : Spec) : Inferred Spec := do
  require (target.count (-1) ≤ 1) (.repeatedWildcard target)
  require (target.all (-1 ≤ ·)) (.reshapeTarget target)
  let extents ← target.zipIdx.mapM fun (item, axis) =>
    targetExtent input.shape specialZero item axis
  let known ← literalCount target extents
  match input.shape.elementCount?, known with
  | some total, some known =>
    if -1 ∈ target then
      require (known != 0 && total % known == 0) (.reshapeWildcard input.shape target)
      return ⟨input.elementType, .ranked ((target.zip extents).map fun (item, e) =>
        if item = -1 then .known (total / known) else e)⟩
    else
      require (known == total) (.reshapeCount input.shape total target)
      return ⟨input.elementType, .ranked extents⟩
  | _, _ => return ⟨input.elementType, .ranked extents⟩

/-- An axis to remove: its extent is one or may turn out to be. -/
def squeezeAxis (shape : Shape) (extents : List Extent) (axis : Int) : Inferred Nat := do
  let i ← axisOf shape extents.length axis
  require (extents[i]? == some (.known 1) || extents[i]? == some .unknown)
    (.squeezeExtent axis shape)
  return i

def squeeze (axes : List Int) (input : Spec) : Inferred Spec := do
  match input.shape with
  | .unranked => return ⟨input.elementType, .unranked⟩
  | .ranked extents =>
    if axes.isEmpty then
      if extents.all Extent.isKnown then
        return ⟨input.elementType, .ranked (extents.filter (· ≠ .known 1))⟩
      else return ⟨input.elementType, .unranked⟩
    else
      let positions ← axes.mapM (squeezeAxis input.shape extents)
      return ⟨input.elementType, .ranked (dropPositions positions extents)⟩

/-- The new axes, looked up one after the other, each at most once. -/
def newAxes (rank : Nat) : List Nat → List Int → Inferred (List Nat)
  | found, [] => return found
  | found, axis :: axes => do
    let i ← ofOption (.axisOfRank axis rank) (resolveAxis axis rank)
    require (i ∉ found) (.axisRepeated axis)
    newAxes rank (i :: found) axes

def unsqueeze (axes : List Int) (input : Spec) : Inferred Spec := do
  match input.shape with
  | .unranked => return ⟨input.elementType, .unranked⟩
  | .ranked extents =>
    let rank := extents.length + axes.length
    let found ← newAxes rank [] axes
    let extents ← ofOption .unsqueezeSource
      (interleave (.known 1) ((List.range rank).map (· ∈ found)) extents)
    return ⟨input.elementType, .ranked extents⟩

end TensorGraph.Inferred
