import TensorGraph.Attempt
import TensorGraph.Graph.Body
import TensorGraph.Rewrite.Commit

/-! # Staging

Plans are made step by step. A step that fails gives up the whole plan.
-/

namespace TensorGraph

abbrev Staging := StateT (Plan Body) Attempt

namespace Staging

variable {α : Type}

def decline : Staging α := fun _ => .error .declined

def ofAttempt (x : Attempt α) : Staging α := fun p => x.map fun a => (a, p)

def ofOption (x : Option α) : Staging α := ofAttempt (.ofOption x)

def check (condition : Bool) : Staging Unit := if condition then pure () else decline

def make (g : Graph) (op : Operation Body) (inputs : List Operand) : Staging Nat := fun p =>
  (Attempt.ofEdit (p.make g op inputs)).map Prod.swap

def makeValue (g : Graph) (op : Operation Body) (inputs : List Operand) : Staging Operand := do
  return .staged (← make g op inputs) 0

def rename (index : Nat) (name : String) : Staging Unit := fun p =>
  (Attempt.ofEdit (p.rename index name)).map fun p => ((), p)

def inherit (sources : List NodeId) : Staging Unit := modify fun p => p.inherit sources

def replace (v : Value) (x : Operand) : Staging Unit := modify fun p => p.replace v x

def spec (g : Graph) (x : Operand) : Staging Spec := do
  ofOption ((← get).spec? g x)

def toPlan (s : Staging Unit) : Attempt (Plan Body) := (s.run .empty).map (·.2)

end Staging

end TensorGraph
