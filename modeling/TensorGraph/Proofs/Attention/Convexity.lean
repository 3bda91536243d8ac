import TensorGraph.Attention.Island
import TensorGraph.Proofs.Arena.Reach
import TensorGraph.Proofs.Rewrite.Versions

/-! # Convex islands

The test for convexity follows only nodes that are ranked no higher than the island. That is enough:
a path that comes back into an island never goes above its highest node.
-/

namespace TensorGraph

open Relation (ReflTransGen TransGen)

namespace Arena

variable {β : Type} {a : Arena β} {x y : NodeId}

theorem mem_consumers_iff (ha : a.Linked) : y ∈ a.consumers x ↔ a.Reads y x := by
  have hconsumers : a.consumers x = (a.allUses x).map Use.node := by
    unfold consumers allUses
    cases a.node? x with
    | none => rfl
    | some n => simp [List.map_flatMap]
  rw [hconsumers, List.mem_map, Reads, mem_producers_iff]
  simp only [mem_allUses_iff ha]
  constructor
  · rintro ⟨u, ⟨v, hu, hv⟩, hy⟩
    exact ⟨u, v, hu, hy, hv⟩
  · rintro ⟨u, v, hu, hy, hv⟩
    exact ⟨u, ⟨v, hu, hv⟩, hy⟩

end Arena

namespace Ranking

variable {β : Type} {a : Arena β} {r : Ranking} {x y : NodeId}

theorem Ranks.mem_order_iff (hr : r.Ranks a) : x ∈ r.order ↔ a.contains x = true :=
  hr.perm.mem_iff.trans Arena.mem_nodeIds_iff_contains

theorem Ranks.nodup (hr : r.Ranks a) : r.order.Nodup :=
  hr.perm.nodup_iff.mpr Arena.nodup_nodeIds

theorem rank?_eq (hx : x ∈ r.order) : r.rank? x = some (r.order.idxOf x) := by
  obtain ⟨k, hk⟩ := Option.isSome_iff_exists.mp (List.isSome_idxOf?.mpr hx)
  rw [rank?, List.idxOf_eq_getD_idxOf?, hk, Option.getD_some]

theorem Ranks.rankedBy (hr : r.Ranks a) : a.RankedBy r.order.idxOf :=
  hr.ordered.rankedBy fun _ => hr.mem_order_iff.mpr

end Ranking

namespace Attention.Island

variable {g : Graph} {r : Ranking} {i : Island} {m w x y : NodeId}

/-- No path leads from a node that reads the island back into it. -/
def Convex (i : Island) (g : Graph) : Prop :=
  ∀ m ∈ i.nodes, ∀ x, x ∉ i.nodes → g.Reads x m → ∀ m' ∈ i.nodes, ¬ TransGen g.Reads m' x

theorem idxOf_le_highest {highest : Nat} (h : i.highest? r = some highest) (hm : m ∈ i.nodes)
    (hr : m ∈ r.order) : r.order.idxOf m ≤ highest := by
  have hmax := (List.max?_eq_some_iff.mp h).2
  exact hmax _ (List.mem_filterMap.mpr ⟨m, hm, Ranking.rank?_eq hr⟩)

theorem convex_of_isConvex (hg : g.Linked) (hr : r.Ranks g) (h : i.isConvex g r = true) :
    i.Convex g := by
  unfold isConvex at h
  split at h
  · cases h
  rename_i highest hhighest
  simp only [Bool.and_eq_true, List.all_eq_true, Bool.not_eq_true', List.contains_eq_mem,
    decide_eq_false_iff_not] at h
  obtain ⟨hlive, hreached⟩ := h
  intro m hm x hx hread m' hm' hpath
  have hrank := hr.rankedBy
  have hdomain (z : NodeId) (hz : g.contains z = true) (hle : r.order.idxOf z ≤ highest) :
      z ∈ r.order.take (highest + 1) :=
    (List.mem_take_iff_idxOf_lt (hr.mem_order_iff.mpr hz)).mpr (Nat.lt_succ_of_le hle)
  -- along a path to `x`, all nodes ranked low enough are reached
  have hfollow {z : NodeId} (hz : ReflTransGen g.Reads z x) :
      r.order.idxOf z ≤ highest → z ∈ closure g.consumers (r.order.take (highest + 1))
        ((i.nodes.flatMap g.consumers).filter fun id => !decide (id ∈ i.nodes)) := by
    induction hz using ReflTransGen.head_induction_on with
    | refl =>
      intro hle
      refine mem_closure_of_mem_work ?_ (hdomain x (Arena.contains_of_reads_left hread) hle)
      rw [List.mem_filter, List.mem_flatMap]
      refine ⟨⟨m, hm, (Arena.mem_consumers_iff hg).mpr hread⟩, ?_⟩
      simpa using hx
    | @head z y hzy _ ih =>
      intro hle
      have hlt := hrank _ _ hzy
      refine closure_closed (ih (hlt.le.trans hle)) ((Arena.mem_consumers_iff hg).mpr hzy) ?_
      exact hdomain z (Arena.contains_of_reads_left hzy) hle
  have hle := idxOf_le_highest hhighest hm' (hr.mem_order_iff.mpr (hlive m' hm'))
  exact hreached m' (hfollow hpath.to_reflTransGen hle) hm'

theorem exists_highest (hr : r.Ranks g) (hne : i.nodes ≠ [])
    (hlive : ∀ x ∈ i.nodes, g.contains x = true) : ∃ highest, i.highest? r = some highest := by
  obtain ⟨x, hx⟩ := List.exists_mem_of_ne_nil _ hne
  have hrank := Ranking.rank?_eq (hr.mem_order_iff.mpr (hlive x hx))
  exact Option.isSome_iff_exists.mp
    (List.isSome_max?_of_mem (List.mem_filterMap.mpr ⟨x, hx, hrank⟩))

/-- The search blames only paths that leave the island and enter it again. -/
theorem isConvex_of_convex (hg : g.Linked) (hr : r.Ranks g) (hne : i.nodes ≠ [])
    (hlive : ∀ x ∈ i.nodes, g.contains x = true) (h : i.Convex g) : i.isConvex g r = true := by
  obtain ⟨highest, hhighest⟩ := exists_highest hr hne hlive
  simp only [isConvex, hhighest, Bool.and_eq_true, List.all_eq_true, Bool.not_eq_true',
    List.contains_eq_mem, decide_eq_false_iff_not]
  refine ⟨hlive, fun y hy hmem => ?_⟩
  -- whatever is reached lies on a path from a node outside that reads the island
  obtain ⟨m, hm, x, hx, hread, hpath⟩ : ∃ m ∈ i.nodes, ∃ x, x ∉ i.nodes ∧ g.Reads x m ∧
      ReflTransGen g.Reads y x := by
    refine closure_induction (p := fun y => ∃ m ∈ i.nodes, ∃ x, x ∉ i.nodes ∧ g.Reads x m ∧
      ReflTransGen g.Reads y x) (fun x hx _ => ?_) (fun y z hy hz _ => ?_) hy
    · obtain ⟨hconsumer, hout⟩ := List.mem_filter.mp hx
      obtain ⟨m, hm, hconsumer⟩ := List.mem_flatMap.mp hconsumer
      exact ⟨m, hm, x, by simpa using hout, (Arena.mem_consumers_iff hg).mp hconsumer, .refl⟩
    · obtain ⟨m, hm, x, hx, hread, hpath⟩ := hy
      exact ⟨m, hm, x, hx, hread, .head ((Arena.mem_consumers_iff hg).mp hz) hpath⟩
  rcases Relation.reflTransGen_iff_eq_or_transGen.mp hpath with rfl | hpath
  · exact hx hmem
  · exact h m hm x hx hread y hmem hpath

/-- A path leads from the island through a node outside back into it. -/
def Detour (i : Island) (g : Graph) : Prop :=
  ∃ m ∈ i.nodes, ∃ x, x ∉ i.nodes ∧ TransGen g.Reads x m ∧ ∃ m' ∈ i.nodes, TransGen g.Reads m' x

theorem convex_iff_not_detour : i.Convex g ↔ ¬ i.Detour g := by
  constructor
  · rintro h ⟨m, hm, x, hx, hleaves, m', hm', henters⟩
    -- the last node outside on the way from `x` to `m` reads the island
    induction hleaves using TransGen.head_induction_on with
    | single hread => exact h m hm _ hx hread m' hm' henters
    | @head x y hread _ ih =>
      by_cases hy : y ∈ i.nodes
      · exact h y hy x hx hread m' hm' henters
      · exact ih hy (henters.tail hread)
  · intro h m hm x hx hread m' hm' hpath
    exact h ⟨m, hm, x, hx, .single hread, m', hm', hpath⟩

/-- All that an entering value depends on lies outside and reads nothing of the island. -/
theorem Convex.outside (h : i.Convex g) (hm : m ∈ i.nodes) (hread : g.Reads m w)
    (hw : w ∉ i.nodes) (hy : ReflTransGen g.Reads w y) :
    y ∉ i.nodes ∧ ∀ m' ∈ i.nodes, ¬ g.Reads y m' := by
  have hfar {z : NodeId} (hz : ReflTransGen g.Reads w z) (hout : z ∉ i.nodes) :
      ∀ m' ∈ i.nodes, ¬ g.Reads z m' :=
    fun m' hm' hr => h m' hm' z hout hr m hm (TransGen.head' hread hz)
  induction hy with
  | refl => exact ⟨hw, hfar .refl hw⟩
  | @tail y z hy hyz ih =>
    have hz : z ∉ i.nodes := fun hmem => ih.2 z hmem hyz
    exact ⟨hz, hfar (hy.tail hyz) hz⟩

end Attention.Island

end TensorGraph
