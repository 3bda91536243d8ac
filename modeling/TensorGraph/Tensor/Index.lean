/-! # Row-major positions

Coordinates and positions of the entries of a tensor, the last axis running fastest.
`position_coordinates` says that the two are inverse on the entries of a tensor.
-/

namespace TensorGraph

/-- The number of entries of a tensor of these sizes. -/
def entryCount : List Nat → Nat
  | [] => 1
  | n :: sizes => n * entryCount sizes

/-- The coordinates of the entry at a position. -/
def coordinates : List Nat → Nat → List Nat
  | [], _ => []
  | _ :: sizes, i => i / entryCount sizes :: coordinates sizes (i % entryCount sizes)

/-- The position of the entry with these coordinates. -/
def position : List Nat → List Nat → Nat
  | _ :: sizes, c :: cs => c * entryCount sizes + position sizes cs
  | _, _ => 0

theorem position_coordinates {sizes : List Nat} {i : Nat} (h : i < entryCount sizes) :
    position sizes (coordinates sizes i) = i := by
  induction sizes generalizing i with
  | nil => simp_all [position, entryCount]
  | cons n sizes ih =>
    have hpos : 0 < entryCount sizes := by
      rcases Nat.eq_zero_or_pos (entryCount sizes) with h0 | h0
      · simp [entryCount, h0] at h
      · exact h0
    rw [coordinates, position, ih (Nat.mod_lt i hpos)]
    exact Nat.div_add_mod' i (entryCount sizes)

/-- How far apart the entries are that are neighbours along an axis, computed from the last one. -/
def strides : List Nat → List Nat
  | [] => []
  | [_] => [1]
  | _ :: n :: sizes => n * (strides (n :: sizes)).headD 1 :: strides (n :: sizes)

/-- The coordinates at which an operand of these sizes is read for an entry of a broadcast:
leading axes are dropped and an axis of length one is read at zero. -/
def broadcastCoordinates (sizes coords : List Nat) : List Nat :=
  sizes.zipWith (fun n c => if n = 1 then 0 else c) (coords.drop (coords.length - sizes.length))

/-- The coordinates `d` with `d[perm[i]] = coords[i]`. -/
def permutedCoordinates (perm coords : List Nat) : List Nat :=
  (List.range perm.length).map fun axis => coords.getD (perm.idxOf axis) 0

/-- Every axis below the length occurs exactly once. -/
def isPermutation (perm : List Nat) : Bool :=
  perm.all (· < perm.length) && perm.Nodup

def isIdentityPermutation (perm : List Nat) : Bool := perm == List.range perm.length

/-- The common size of two axes; an axis of length one is stretched. -/
def broadcastSize (a b : Nat) : Option Nat :=
  if a = b then some a else if a = 1 then some b else if b = 1 then some a else none

end TensorGraph
