import TensorGraph.Graph.Body

/-! # Guards

Conditions that a pattern puts on a value of a graph. Each has a label that says what it tests.
-/

namespace TensorGraph

structure Guard where
  label : String
  test : Graph → Value → Bool

namespace Guard

def always : Guard := ⟨"true", fun _ _ => true⟩

def and (p q : Guard) : Guard :=
  ⟨"(" ++ p.label ++ " && " ++ q.label ++ ")", fun g v => p.test g v && q.test g v⟩

def or (p q : Guard) : Guard :=
  ⟨"(" ++ p.label ++ " || " ++ q.label ++ ")", fun g v => p.test g v || q.test g v⟩

def not (p : Guard) : Guard := ⟨"!" ++ p.label, fun g v => !p.test g v⟩

/-- Exactly so many inputs read the value. -/
def consumerCount (count : Nat) : Guard :=
  ⟨"consumers_count(" ++ toString count ++ ")", fun g v => (g.uses v).length == count⟩

/-- A test of the spec of a value that is present. -/
def onSpec (label : String) (test : Spec → Bool) : Guard :=
  ⟨label, fun g v => (g.spec? v).any test⟩

def hasRank : Guard := onSpec "has_static_rank" fun s => s.shape.isRanked

def isStatic : Guard := onSpec "has_static_shape" fun s => s.shape.isStatic

def isFloat : Guard := onSpec "is_float" fun s => s.elementType.isFloat

def ofType (t : ElementType) : Guard :=
  onSpec ("type_matches(" ++ t.name ++ ")") fun s => s.elementType == t

def ofTypes (ts : List ElementType) : Guard :=
  onSpec "type_matches_any" fun s => ts.contains s.elementType

/-- A test of the operation that produces the value. -/
def onOperation (label : String) (test : Operation Body → Bool) : Guard :=
  ⟨label, fun g v => (g.node? v.node).any fun n => test n.op⟩

end Guard

end TensorGraph
