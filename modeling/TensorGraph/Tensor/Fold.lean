import TensorGraph.Attempt
import TensorGraph.Primitive

/-! # Folding over constants

Elementwise arithmetic, changes of shape and conversions can be evaluated on constant tensors.
`Primitive.fold?` gives the resulting tensor, or nothing for other operations and for operands
that do not fit. `Primitive.fold` also keeps to the range of counts: folding takes products of
sizes, and it overflows if one of them is out of range.
-/

namespace TensorGraph

/-- The common sizes of two operands, aligned at their last axes. -/
def broadcastSizes (a b : List Nat) : Option (List Nat) :=
  let rank := max a.length b.length
  ((alignRight 1 rank a).zip (alignRight 1 rank b)).mapM fun (x, y) => broadcastSize x y

/-- The size that a target item stands for; an inferred one counts as one. -/
def targetSize? (sizes : List Nat) (specialZero : Bool) (item : Int) (axis : Nat) : Option Nat :=
  if item = -1 then some 1
  else if item = 0 && specialZero then sizes[axis]?
  else if 0 ≤ item then some item.toNat
  else none

/-- The sizes that the items of a reshape target stand for. -/
def targetSizes? (sizes : List Nat) (target : List Int) (specialZero : Bool) :
    Option (List Nat) :=
  target.zipIdx.mapM fun (item, axis) => targetSize? sizes specialZero item axis

/-- The sizes that a reshape target gives for these input sizes. -/
def resolveTarget? (sizes : List Nat) (target : List Int) (specialZero : Bool) :
    Option (List Nat) := do
  let literal ← targetSizes? sizes target specialZero
  match target.count (-1) with
  | 0 => if entryCount literal = entryCount sizes then some literal else none
  | 1 =>
    if entryCount literal = 0 ∨ entryCount sizes % entryCount literal ≠ 0 then none
    else some ((target.zip literal).map fun (item, n) =>
      if item = -1 then entryCount sizes / entryCount literal else n)
  | _ => none

/-- The axes to remove, each of length one; no axes stands for all of length one. -/
def squeezePositions? (sizes : List Nat) (axes : List Int) : Option (List Nat) :=
  if axes.isEmpty then some ((List.range sizes.length).filter fun i => sizes[i]? == some 1)
  else axes.mapM fun axis => do
    let i ← resolveAxis axis sizes.length
    if sizes[i]? = some 1 then some i else none

/-- The axes that are new in a tensor of that rank, each named once. -/
def unsqueezePositions? (rank : Nat) (axes : List Int) : Option (List Nat) := do
  let positions ← axes.mapM fun axis => resolveAxis axis rank
  if positions.Nodup then some positions else none

namespace Tensor

/-- Both operands read along the broadcast, combined and cast to their element type. -/
def zipWith? (f : Float → Float → Float) (a b : Tensor) : Option Tensor :=
  if a.elementType = b.elementType then
    (broadcastSizes a.sizes b.sizes).map fun sizes =>
      tabulate a.elementType sizes fun coords =>
        a.elementType.cast (f (a.entry (broadcastCoordinates a.sizes coords))
          (b.entry (broadcastCoordinates b.sizes coords)))
  else none

def transpose? (t : Tensor) (perm : List Nat) : Option Tensor :=
  if perm.length = t.sizes.length ∧ isPermutation perm then
    some (tabulate t.elementType (perm.map fun axis => t.sizes.getD axis 0) fun coords =>
      t.entry (permutedCoordinates perm coords))
  else none

def reshape? (t : Tensor) (target : List Int) (specialZero : Bool) : Option Tensor := do
  t.withSizes? (← resolveTarget? t.sizes target specialZero)

def squeeze? (t : Tensor) (axes : List Int) : Option Tensor := do
  t.withSizes? (dropPositions (← squeezePositions? t.sizes axes) t.sizes)

def unsqueeze? (t : Tensor) (axes : List Int) : Option Tensor := do
  let rank := t.sizes.length + axes.length
  let positions ← unsqueezePositions? rank axes
  t.withSizes? (← interleave 1 ((List.range rank).map (· ∈ positions)) t.sizes)

end Tensor

def Primitive.fold? (p : Primitive) (operands : List Tensor) : Option Tensor :=
  match p, operands with
  | add, [a, b] => a.zipWith? (· + ·) b
  | subtract, [a, b] => a.zipWith? (· - ·) b
  | multiply, [a, b] => a.zipWith? (· * ·) b
  | reshape target specialZero, [t] => t.reshape? target specialZero
  | transpose perm, [t] => t.transpose? perm
  | squeeze axes, [t] => t.squeeze? axes
  | unsqueeze axes, [t] => t.unsqueeze? axes
  | convert elementType, [t] => some (t.convert elementType)
  | _, _ => none

/-! ### Products in range -/

def IsCountable (sizes : List Nat) : Prop := (boundedProduct sizes).isSome

instance (sizes : List Nat) : Decidable (IsCountable sizes) := inferInstanceAs (Decidable (_ = _))

def IsStrided (sizes : List Nat) : Prop := ∀ n ∈ strides sizes, n < countLimit

instance (sizes : List Nat) : Decidable (IsStrided sizes) :=
  inferInstanceAs (Decidable (∀ n ∈ strides sizes, _))

namespace Tensor

/-- Operands are strided once their types and sizes are found to fit, and the result is counted. -/
def ZipFits (a b : Tensor) : Prop :=
  a.elementType = b.elementType → ∀ sizes ∈ broadcastSizes a.sizes b.sizes,
    IsStrided a.sizes ∧ IsStrided b.sizes ∧ IsCountable sizes

/-- A tensor is strided once the permutation is found to fit. The result is not counted. -/
def TransposeFits (t : Tensor) (perm : List Nat) : Prop :=
  perm.length = t.sizes.length ∧ isPermutation perm → IsStrided t.sizes

/-- A tensor is counted before the target is looked at, and the target once it makes sense. -/
def ReshapeFits (t : Tensor) (target : List Int) (specialZero : Bool) : Prop :=
  IsCountable t.sizes ∧ (target.count (-1) ≤ 1 →
    ∀ sizes ∈ targetSizes? t.sizes target specialZero, IsCountable sizes)

instance (a b : Tensor) : Decidable (a.ZipFits b) := inferInstanceAs (Decidable (_ → _))

instance (t : Tensor) (perm : List Nat) : Decidable (t.TransposeFits perm) :=
  inferInstanceAs (Decidable (_ → _))

instance (t : Tensor) (target : List Int) (specialZero : Bool) :
    Decidable (t.ReshapeFits target specialZero) := inferInstanceAs (Decidable (_ ∧ _))

end Tensor

namespace Primitive

/-- All products that are taken to fold the operands are in range. -/
def foldFits (p : Primitive) (operands : List Tensor) : Bool :=
  match p, operands with
  | add, [a, b] | subtract, [a, b] | multiply, [a, b] => a.ZipFits b
  | reshape target specialZero, [t] => t.ReshapeFits target specialZero
  | transpose perm, [t] => t.TransposeFits perm
  | _, _ => true

def fold (p : Primitive) (operands : List Tensor) : Attempt Tensor :=
  if p.foldFits operands then .ofOption (p.fold? operands) else .error .overflow

variable {p : Primitive} {operands : List Tensor}

theorem fold_eq_ok_iff {t : Tensor} :
    p.fold operands = .ok t ↔ p.foldFits operands = true ∧ p.fold? operands = some t := by
  unfold fold Attempt.ofOption
  grind

theorem fold_eq_declined_iff :
    p.fold operands = .error .declined ↔ p.foldFits operands = true ∧ p.fold? operands = none := by
  unfold fold Attempt.ofOption
  grind

theorem fold_eq_overflow_iff : p.fold operands = .error .overflow ↔ p.foldFits operands = false := by
  unfold fold Attempt.ofOption
  grind

end Primitive

end TensorGraph
