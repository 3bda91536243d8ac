import TensorGraph.Proofs.Arena.Precedence
import TensorGraph.Proofs.Arena.WellFormed

/-! # Keys of annotations

The keys under which a node is annotated. Completing annotations by others makes the union of the
keys, whatever the values are.
-/

namespace TensorGraph

namespace Annotations

variable {a b : Annotations} {key : String}

def keys (a : Annotations) : List String := a.entries.map Prod.fst

theorem not_mem_keys_empty : key ∉ empty.keys := List.not_mem_nil

theorem isSome_get?_iff : (a.get? key).isSome = true ↔ key ∈ a.keys := by
  simp [get?, keys]

theorem mem_keys_merge : key ∈ (a.merge b).keys ↔ key ∈ a.keys ∨ key ∈ b.keys := by
  simp only [← isSome_get?_iff, get?_merge, Option.isSome_or, Bool.or_eq_true]

end Annotations

namespace Arena

variable {β : Type} {a b : Arena β} {x : NodeId} {key : String} {sources : List NodeId}

def Carries (a : Arena β) (x : NodeId) (key : String) : Prop :=
  ∃ n, a.node? x = some n ∧ key ∈ n.annotations.keys

/-- The key is on an inserted node that stays, or in the body of such a node. -/
def Retains (a : Arena Body) (inserted : List NodeId) (key : String) : Prop :=
  ∃ y ∈ inserted, ∃ n, a.node? y = some n ∧ (key ∈ n.annotations.keys ∨
    ∃ body z, n.op = .subgraph (.mk body) ∧ body.Carries z key)

theorem carries_iff_bare :
    a.Carries x key ↔ ∃ n, a.bare? x = some n ∧ key ∈ n.annotations.keys := by
  simp only [Carries, bare?, Option.map_eq_some_iff]
  constructor
  · rintro ⟨n, hn, hkey⟩
    exact ⟨n.bare, ⟨n, hn, rfl⟩, hkey⟩
  · rintro ⟨-, ⟨n, hn, rfl⟩, hkey⟩
    exact ⟨n, hn, hkey⟩

theorem carries_congr (h : b.bare? x = a.bare? x) : b.Carries x key ↔ a.Carries x key := by
  rw [carries_iff_bare, carries_iff_bare, h]

theorem mem_keys_mergedAnnotations :
    key ∈ (a.mergedAnnotations sources).keys ↔ ∃ s ∈ sources, a.Carries s key := by
  rw [← Annotations.isSome_get?_iff, get?_mergedAnnotations, firstAnnotation?,
    List.findSome?_isSome_iff]
  refine exists_congr fun s => and_congr_right fun _ => ?_
  cases hs : a.node? s with
  | none => simp [Carries, hs]
  | some n => simp [Carries, hs, Annotations.isSome_get?_iff]

end Arena

end TensorGraph
