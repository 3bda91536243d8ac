import TensorGraph.Attention.Island

/-! # Selection of islands

Islands that share a node cannot both move. Larger islands go first, then those whose root has
the lower rank, then those found earlier; each is chosen unless it meets one chosen before it.
-/

namespace TensorGraph.Attention

/-- An island with its position in the list of all that were found. -/
structure Candidate where
  island : Island
  position : Nat

namespace Candidate

/-- Roots without a rank come last. -/
def rootRank (r : Ranking) (x : Candidate) : Nat := (r.rank? x.island.root).getD r.order.length

def size (x : Candidate) : Nat := x.island.nodes.length

/-- By decreasing size, then by the rank of the root, then by position. -/
def goesFirst (r : Ranking) (x y : Candidate) : Bool :=
  y.size < x.size || (x.size == y.size &&
    (x.rootRank r < y.rootRank r || (x.rootRank r == y.rootRank r && x.position ≤ y.position)))

def meets (x y : Candidate) : Bool := x.island.nodes.any y.island.nodes.contains

end Candidate

def candidates (islands : List Island) (r : Ranking) : List Candidate :=
  (islands.zipIdx.map fun (island, position) => ⟨island, position⟩).mergeSort
    (Candidate.goesFirst r)

structure Selection where
  chosen : List Candidate
  rejected : Nat

/-- Those of the list that meet none chosen before them. -/
def choose (chosen : List Candidate) : List Candidate → Selection
  | [] => ⟨[], 0⟩
  | x :: rest =>
    if chosen.any x.meets then
      let s := choose chosen rest
      ⟨s.chosen, s.rejected + 1⟩
    else
      let s := choose (x :: chosen) rest
      ⟨x :: s.chosen, s.rejected⟩

def select (islands : List Island) (r : Ranking) : Selection := choose [] (candidates islands r)

end TensorGraph.Attention
