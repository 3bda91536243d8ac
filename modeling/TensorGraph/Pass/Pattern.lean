import TensorGraph.Pass.Basic
import TensorGraph.Pattern.Match
import TensorGraph.Rewrite.Staging

/-! # Pattern passes

A pattern with a rewrite of what it matches. A run visits every node once, in the topological
order of the graph at its start. Matched nodes are pinned while a rewrite is committed, so that
none of their slots is taken again in the meantime.
-/

namespace TensorGraph

structure PatternPass where
  name : String
  pattern : Pattern
  /-- The rewrite for a match, unless it is declined. -/
  rewrite : Graph → Match → Attempt (Plan Body)

namespace PatternPass

def pinAll (g : Graph) (ids : List NodeId) : Except GraphError Graph := ids.foldlM Arena.pin g

/-- Unpins all nodes; counts the releases and keeps the first failure. -/
def unpinAll (g : Graph) : List NodeId → Graph × Nat × Option GraphError
  | [] => (g, 0, none)
  | id :: ids =>
    match g.unpin id with
    | .ok (g, count) =>
      let (g, rest, failure) := unpinAll g ids
      (g, count + rest, failure)
    | .error e =>
      let (g, rest, _) := unpinAll g ids
      (g, rest, some e)

/-- The commit of the rewrite for a match, if there is one. -/
def commitMatch (p : PatternPass) (g : Graph) (m : Match) :
    Graph × Except GraphError (Option Commit) :=
  match p.rewrite g m with
  | .error .overflow => (g, .error .overflow)
  | .error .declined => (g, .ok none)
  | .ok plan =>
    if plan.isEmpty then (g, .ok none)
    else match g.commit plan with
      | .ok (g, done) => (g, .ok (some done))
      | .error e => (g, .error e)

/-- What a match adds to the outcome of a run. An overflow ends the program on the spot. -/
def visitMatch (p : PatternPass) (before : Graph) (root : NodeId) (m : Match) : Run Outcome :=
  let failure := TransformError.ofEdit p.name (some root)
  match pinAll before m.nodes with
  | .error e => (before, .error (failure e))
  | .ok g =>
    let (g, committed) := p.commitMatch g m
    let (g, released, left) := unpinAll g m.nodes
    match committed, left with
    | .error .overflow, _ => (before, .error .overflow)
    | .error e, _ => (g, .error (failure e))
    | .ok _, some e => (g, .error (failure e))
    | .ok none, none => (g, .ok ⟨false, 1, 0, released⟩)
    | .ok (some done), none => (g, .ok ⟨true, 1, 1, released + done.released⟩)

/-- The match at a node that is still live and of a kind that a root may have. -/
def matchAt? (p : PatternPass) (g : Graph) (root : NodeId) : Option Match :=
  match g.kind? root with
  | none => none
  | some kind =>
    if p.pattern.rootKinds?.all (·.contains kind) then p.pattern.matchNode g root else none

def visitAll (p : PatternPass) : List NodeId → Graph → Outcome → Run Outcome
  | [], g, outcome => (g, .ok outcome)
  | root :: roots, g, outcome =>
    match p.matchAt? g root with
    | none => visitAll p roots g outcome
    | some m =>
      match p.visitMatch g root m with
      | (g, .error e) => (g, .error e)
      | (g, .ok o) => visitAll p roots g (outcome.merge o)

def run (p : PatternPass) (g : Graph) : Run Outcome :=
  match g.topologicalOrder with
  | .error e => (g, .error (.invariantViolation p.name none e))
  | .ok order => p.visitAll order g .none

def toPass (p : PatternPass) : Pass := ⟨p.name, p.run⟩

end PatternPass

end TensorGraph
