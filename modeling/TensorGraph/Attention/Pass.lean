import TensorGraph.Attention.Fusion
import TensorGraph.Attention.Selection
import TensorGraph.Pass.Basic

/-! # Attention pass

The pass that finds attention in a graph and makes one subgraph of each place where it is found.
All islands are found first; then the selected ones are fused one after the other, as far as they
are still there.
-/

namespace TensorGraph.Attention

/-- The first variant whose motif matches at a product. -/
def motifAt? (c : Config) (g : Graph) (root : NodeId) : Option (Variant × Match) :=
  if g.kind? root = some .matMul then
    c.variants.findSome? fun variant => (variant.motif.matchNode g root).map fun m => (variant, m)
  else none

/-- The island of a match, if it may move. -/
def islandOf? (c : Config) (r : Ranking) (g : Graph) (variant : Variant) (m : Match) :
    Option Island :=
  (Island.collect c r g variant m).filter fun i =>
    match i.boundary g with
    | .ok b => i.permits c b && i.isConvex g r
    | .error _ => false

/-- The islands that may move, and the number of matches. -/
def discover (c : Config) (r : Ranking) (g : Graph) : List Island × Nat :=
  let found := r.order.filterMap (motifAt? c g)
  (found.filterMap fun (variant, m) => islandOf? c r g variant m, found.length)

def passName : String := "mha-tokenize"

/-- Fuses an island unless a value would leave it that has to stay. -/
def fusePermitted (c : Config) (g : Graph) (i : Island) :
    Except GraphError (Option (Graph × Commit)) := do
  let b ← i.boundary g
  if i.permits c b then some <$> i.fuse g b else return none

def fused (o : Outcome) (done : Commit) : Outcome :=
  { o with changed := true, rewritten := o.rewritten + 1, released := o.released + done.released }

/-- Fuses the islands that are still there and convex, with a ranking of the current graph. -/
def fuseAll (c : Config) : List Island → Ranking → Graph → Outcome → Run Outcome
  | [], _, g, o => (g, .ok o)
  | i :: rest, r, g, o =>
    match r.refresh g with
    | .error e => (g, .error (.invariantViolation passName none e))
    | .ok r =>
      if i.isLive g && i.isConvex g r then
        match fusePermitted c g i with
        | .error e => (g, .error (.ofEdit passName (some i.root) e))
        | .ok none => fuseAll c rest r g o
        | .ok (some (g, done)) => fuseAll c rest r g (fused o done)
      else fuseAll c rest r g o

def run (c : Config) (g : Graph) : Run Outcome :=
  match Ranking.compute g with
  | .error e => (g, .error (.invariantViolation passName none e))
  | .ok r =>
    let (islands, matched) := discover c r g
    let chosen := (select islands r).chosen.map Candidate.island
    fuseAll c chosen r g { Outcome.none with matched }

def pass (c : Config) : Pass := ⟨passName, run c⟩

end TensorGraph.Attention
