import TensorGraph.Graph.Validity
import TensorGraph.Graph.Body

/-! # Passes

A pass changes a graph and says what it did. A pass that fails keeps what it had changed before.
-/

namespace TensorGraph

structure Outcome where
  changed : Bool
  /-- Successful matches, whether or not a rewrite followed. -/
  matched : Nat
  /-- Committed rewrites. -/
  rewritten : Nat
  /-- Nodes released by the rewrites. -/
  released : Nat
deriving DecidableEq

namespace Outcome

def none : Outcome := ⟨false, 0, 0, 0⟩

def merge (a b : Outcome) : Outcome :=
  ⟨a.changed || b.changed, a.matched + b.matched, a.rewritten + b.rewritten,
    a.released + b.released⟩

end Outcome

abbrev Run (α : Type) := Graph × Except TransformError α

structure Pass where
  name : String
  run : Graph → Run Outcome

namespace Pass

/-- Two passes in one, the second after the first. -/
def both (name : String) (first second : Pass) : Pass :=
  ⟨name, fun g =>
    match first.run g with
    | (g, .error e) => (g, .error e)
    | (g, .ok a) =>
      match second.run g with
      | (g, .error e) => (g, .error e)
      | (g, .ok b) => (g, .ok (a.merge b))⟩

/-- A run after which a changed graph is validated. -/
def runChecked (p : Pass) (g : Graph) : Run Outcome :=
  match p.run g with
  | (g, .error e) => (g, .error e)
  | (g, .ok outcome) =>
    if outcome.changed then
      match g.validate with
      | .error e => (g, .error (.invariantViolation p.name .none e))
      | .ok () => (g, .ok outcome)
    else (g, .ok outcome)

end Pass

end TensorGraph
