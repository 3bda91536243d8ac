import TensorGraph.ElementType

/-! # Partially known shapes

A shape is a list of extents, each known or not, or nothing at all. Broadcasting aligns two
shapes at their last axes and stretches extents of one.
-/

namespace TensorGraph

variable {α : Type}

/-- The length of one axis. -/
inductive Extent where
  | known (size : Nat)
  | unknown
deriving DecidableEq

namespace Extent

def size? : Extent → Option Nat
  | known n => some n
  | unknown => none

def isKnown : Extent → Bool
  | known _ => true
  | unknown => false

/-- What two descriptions of one axis say together; `none` if they disagree. -/
def merge : Extent → Extent → Option Extent
  | known a, known b => if a = b then some (known a) else none
  | known a, unknown => some (known a)
  | unknown, e => some e

/-- The common extent of two axes, or the two sizes that do not fit. An unknown extent against
a known one other than one must turn out to be that one or one. -/
def broadcast : Extent → Extent → Except (Nat × Nat) Extent
  | known a, known b =>
    if a = b then .ok (known a)
    else if a = 1 then .ok (known b)
    else if b = 1 then .ok (known a)
    else .error (a, b)
  | known a, unknown => .ok (if a = 1 then unknown else known a)
  | unknown, known b => .ok (if b = 1 then unknown else known b)
  | unknown, unknown => .ok unknown

def text : Extent → String
  | known n => toString n
  | unknown => "?"

end Extent

/-- The position that a possibly negative axis names in a tensor of that rank. -/
def resolveAxis (axis : Int) (rank : Nat) : Option Nat :=
  let position := if axis < 0 then axis + rank else axis
  if 0 ≤ position ∧ position < rank then some position.toNat else none

/-- The axes of a list, moved to the right end of `rank` axes and filled up with `unit`. -/
def alignRight (unit : α) (rank : Nat) (axes : List α) : List α :=
  List.replicate (rank - axes.length) unit ++ axes

/-- The list with `unit` put in wherever the flag is set and the given axes elsewhere. -/
def interleave (unit : α) : List Bool → List α → Option (List α)
  | [], _ => some []
  | true :: flags, axes => (interleave unit flags axes).map (unit :: ·)
  | false :: _, [] => none
  | false :: flags, a :: axes => (interleave unit flags axes).map (a :: ·)

/-- The axes whose positions are not listed. -/
def dropPositions (positions : List Nat) (axes : List α) : List α :=
  axes.zipIdx.filterMap fun (a, i) => if i ∈ positions then none else some a

/-- Element counts are held in 64 bits. -/
def countLimit : Nat := UInt64.size

def boundedMul (count n : Nat) : Option Nat :=
  if count * n < countLimit then some (count * n) else none

/-- The product, unless a partial one leaves the range of counts. -/
def boundedProduct (sizes : List Nat) : Option Nat := sizes.foldlM boundedMul 1

inductive Shape where
  | unranked
  | ranked (extents : List Extent)
deriving DecidableEq

namespace Shape

def ofSizes (sizes : List Nat) : Shape := ranked (sizes.map .known)

/-- A known rank and nothing more. -/
def ofRank (rank : Nat) : Shape := ranked (List.replicate rank .unknown)

def extents? : Shape → Option (List Extent)
  | unranked => none
  | ranked extents => some extents

def rank? (s : Shape) : Option Nat := s.extents?.map List.length

def isRanked : Shape → Bool
  | unranked => false
  | ranked _ => true

def isStatic : Shape → Bool
  | unranked => false
  | ranked extents => extents.all Extent.isKnown

/-- The sizes, if all of them are known. -/
def sizes? (s : Shape) : Option (List Nat) := do
  (← s.extents?).mapM Extent.size?

def elementCount? (s : Shape) : Option Nat := do
  boundedProduct (← s.sizes?)

def resolveAxis? (s : Shape) (axis : Int) : Option Nat := do
  resolveAxis axis (← s.rank?)

/-- Extents of two shapes, axis by axis from the left after both are aligned at the right. -/
def broadcastExtents (a b : List Extent) : Except (Nat × Nat) (List Extent) :=
  let rank := max a.length b.length
  ((alignRight (.known 1) rank a).zip (alignRight (.known 1) rank b)).mapM
    fun (x, y) => x.broadcast y

def broadcast : Shape → Shape → Except (Nat × Nat) Shape
  | ranked a, ranked b => (broadcastExtents a b).map ranked
  | _, _ => .ok unranked

def text : Shape → String
  | unranked => "[...]"
  | ranked extents => "[" ++ ",".intercalate (extents.map Extent.text) ++ "]"

end Shape

/-- What is known of one value: its element type and its shape. -/
structure Spec where
  elementType : ElementType
  shape : Shape
deriving DecidableEq

def Spec.text (s : Spec) : String := s.elementType.name ++ s.shape.text

end TensorGraph
