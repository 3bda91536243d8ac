import TensorGraph.Graph.Inference

/-! # Bodies

What is said of a body is computed from the inside out: `fold f` replaces every body inside a
graph by what `f` makes of it. `fold_mk` is the equation that defines it.
-/

namespace TensorGraph

namespace Body

variable {α : Type}

def graph : Body → Graph
  | mk g => g

def fold (f : Arena α → α) : Body → α
  | mk g => f { g with
      slots := g.slots.attach.map fun ⟨s, _hs⟩ => { s with
        node := match _hn : s.node with
          | none => none
          | some n => some { n with
              op := match _ho : n.op with
                | .primitive p => .primitive p
                | .subgraph b => .subgraph (fold f b) } } }
termination_by b => b
decreasing_by
  have := Array.sizeOf_lt_of_mem _hs
  cases s
  cases n
  cases g
  simp_all
  omega

theorem fold_mk (f : Arena α → α) (g : Graph) : fold f (mk g) = f (g.map (fold f)) := by
  rw [fold]
  congr 1
  simp only [Arena.map, Arena.mk.injEq, and_true]
  rw [Array.map_attach_eq_pmap]
  simp only [Array.pmap_eq_map]
  refine Array.map_congr_left fun s _ => ?_
  rw [Slot.map]
  congr 1
  split
  · rename_i h
    rw [h, Option.map_none]
  · rename_i n h
    rw [h, Option.map_some, Node.map]
    congr 2
    split <;> rename_i h <;> rw [h, Operation.map]

/-- The number of nodes of a body, and its results on given inputs. -/
def interface : Body → Interface := fold Arena.interface

end Body

instance : Described Body := ⟨Body.interface⟩

end TensorGraph
