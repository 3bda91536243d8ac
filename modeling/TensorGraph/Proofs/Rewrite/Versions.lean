import TensorGraph.Graph.Ranking
import TensorGraph.Proofs.Rewrite.Edits

/-! # Versions

No edit lowers the version of a graph, and every commit raises it. So a ranking computed before a
commit is known to be stale after it, and a refreshed one ranks the graph as it is.
-/

namespace TensorGraph

namespace Arena

variable {β : Type} {a b : Arena β} {p : Plan β}

theorem version_allocate (a : Arena β) (n : Node β) :
    (a.allocate n).1.version = a.version + 1 := by
  unfold allocate
  split <;> rfl

theorem version_enlist (a : Arena β) (kind : Kind) (id : NodeId) :
    (a.enlist kind id).version = a.version := by
  unfold enlist
  split <;> rfl

theorem version_keptByEdits (k : Nat) : KeptByEdits fun a : Arena β => k ≤ a.version where
  allocate a n h := h.trans ((version_allocate a n).symm ▸ Nat.le_succ _)
  modifyNode _ _ _ h := h
  bump _ h := h.trans (Nat.le_succ _)
  enlist a kind id h := h.trans (version_enlist a kind id).ge

theorem version_le_rewire (a : Arena β) (p : Plan β) : a.version ≤ (a.rewire p).1.version :=
  (version_keptByEdits a.version).rewire le_rfl p

theorem version_sweep (a : Arena β) (work : List NodeId) :
    (a.sweep work).1.version = a.version := by
  fun_induction Arena.sweep a work with
  | case1 a => rfl
  | case2 a id work hd ih => exact ih
  | case3 a id work n hd _ _ b count hb ih =>
    rw [hb] at ih
    have hdetach (inputs : List (Value × Nat)) (c : Arena β) :
        (inputs.foldl (fun c x => c.removeUse x.1 (id.input x.2)) c).version =
          c.version := by
      induction inputs generalizing c with
      | nil => rfl
      | cons x inputs ih => exact ih _
    exact ih.trans (hdetach _ _)

theorem version_le_releaseAll (ids : List NodeId) (a : Arena β) :
    a.version ≤ (a.releaseAll ids).1.version := by
  induction ids generalizing a with
  | nil => exact le_rfl
  | cons id ids ih =>
    refine le_trans ?_ (ih _)
    have hsweep := (version_sweep a [id]).ge
    change a.version ≤ (if (a.sweep [id]).2 = 0 then (a.sweep [id]).1
      else (a.sweep [id]).1.bump).version
    split
    · exact hsweep
    · exact hsweep.trans (Nat.le_succ _)

theorem version_lt_apply (a : Arena β) (p : Plan β) : a.version < (a.apply p).1.version := by
  rw [apply_eq]
  exact Nat.lt_succ_of_le ((version_le_rewire a p).trans (version_le_releaseAll _ _))

end Arena

namespace Ranking

variable {β : Type} {a : Arena β} {r : Ranking}

/-- The ranking holds the live nodes, each after the producers of its inputs. -/
structure Ranks (r : Ranking) (a : Arena β) : Prop where
  ordered : a.Ordered r.order
  perm : r.order.Perm a.nodeIds

/-- A ranking of the current version ranks the graph. -/
def Honest (r : Ranking) (a : Arena β) : Prop := r.version = a.version → r.Ranks a

theorem compute_eq_ok (ha : a.WellFormed) :
    ∃ r, compute a = .ok r ∧ r.Ranks a ∧ r.version = a.version := by
  obtain ⟨order, horder, hordered, hperm⟩ := ha.topologicalOrder_eq
  refine ⟨⟨order, a.version⟩, ?_, ⟨hordered, hperm⟩, rfl⟩
  rw [compute, horder]
  rfl

theorem Honest.refresh (h : r.Honest a) (ha : a.WellFormed) :
    ∃ r', r.refresh a = .ok r' ∧ r'.Ranks a ∧ r'.version = a.version := by
  unfold Ranking.refresh isStale
  by_cases hv : r.version = a.version
  · simp [hv, h hv]
  · simpa [hv] using compute_eq_ok ha

theorem honest_of_version_lt (h : r.version < a.version) : r.Honest a :=
  fun he => absurd h (he ▸ lt_irrefl _)

end Ranking

end TensorGraph
