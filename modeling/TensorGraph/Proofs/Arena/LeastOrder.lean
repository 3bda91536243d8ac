import Mathlib.Data.List.Lex
import TensorGraph.Proofs.Arena.Validity

/-! # The least topological order

The ready nodes are in slot order, so the node placed next has the lowest slot of all that could be
next. Any other order has one of the ready nodes at this point, and so the order is the least one,
slot by slot. Where there is a cycle, the node that is reported is in no order of whatever nodes.
-/

namespace TensorGraph

def InSlotOrder (ids : List NodeId) : Prop := ids.Pairwise fun x y => x.index ≤ y.index

theorem inSlotOrder_insertReady {id : NodeId} {ready : List NodeId} (h : InSlotOrder ready) :
    InSlotOrder (insertReady id ready) := by
  induction ready with
  | nil => exact List.pairwise_singleton _ _
  | cons y ready ih =>
    obtain ⟨hy, hready⟩ := List.pairwise_cons.mp h
    rw [insertReady]
    split
    · rename_i hbefore
      have hle : y.index ≤ id.index := by
        simp [NodeId.before] at hbefore
        omega
      refine List.pairwise_cons.mpr ⟨fun z hz => ?_, ih hready⟩
      rcases mem_insertReady.mp hz with rfl | hz
      · exact hle
      · exact hy z hz
    · rename_i hbefore
      have hle : id.index ≤ y.index := by
        simp [NodeId.before] at hbefore
        omega
      refine List.pairwise_cons.mpr ⟨fun z hz => ?_, h⟩
      rcases List.mem_cons.mp hz with rfl | hz
      · exact hle
      · exact hle.trans (hy z hz)

namespace Schedule

variable {s : Schedule}

theorem inSlotOrder_foldl_supply (h : InSlotOrder s.ready) (uses : List Use) :
    InSlotOrder (uses.foldl supply s).ready := by
  induction uses generalizing s with
  | nil => exact h
  | cons u uses ih =>
    refine ih ?_
    rw [ready_supply]
    split
    · exact inSlotOrder_insertReady h
    · exact h

theorem inSlotOrder_foldl_addReady (h : InSlotOrder s.ready) (ids : List NodeId) :
    InSlotOrder (ids.foldl addReady s).ready := by
  induction ids generalizing s with
  | nil => exact h
  | cons id ids ih => exact ih (inSlotOrder_insertReady h)

end Schedule

namespace Arena

variable {β : Type} {a : Arena β} {x y id : NodeId} {s : Schedule}
variable {placed rest order : List NodeId}

theorem inSlotOrder_schedule (a : Arena β) : InSlotOrder a.schedule.ready := by
  refine Schedule.inSlotOrder_foldl_addReady ?_ _
  exact List.Pairwise.nil

theorem Scheduled.mem_ready (h : a.Scheduled placed [] s) (hx : a.contains x = true)
    (hnot : x ∉ placed) (hplaced : ∀ y ∈ a.producers x, y ∈ placed) : x ∈ s.ready := by
  refine (h.ready x).mpr ⟨hx, hnot, ?_⟩
  rw [h.pending x hx, missing_eq_zero.mpr hplaced]
  rfl

theorem Scheduled.place_le (hl : a.Linked) (h : a.Scheduled placed [] s)
    (hsorted : InSlotOrder s.ready) (ho : a.Ordered (placed ++ rest))
    (hperm : (placed ++ rest).Perm a.nodeIds) (count : Nat) :
    (a.place count s).map NodeId.index ≤ rest.map NodeId.index := by
  have hnil (l : List Nat) : [] ≤ l := by
    cases l with
    | nil => exact le_rfl
    | cons i l => exact le_of_lt .nil
  induction count generalizing placed rest s with
  | zero => exact hnil _
  | succ count ih =>
    rw [Arena.place]
    split
    · exact hnil _
    rename_i id ready hs
    have hid : id ∈ s.ready := hs ▸ List.mem_cons_self
    obtain ⟨hlive, hnot, -⟩ := (h.ready id).mp hid
    cases rest with
    | nil =>
      have hmem := hperm.mem_iff.mpr (mem_nodeIds_iff_contains.mpr hlive)
      rw [List.append_nil] at hmem
      exact absurd hmem hnot
    | cons y rest =>
      have hy : y ∈ placed ++ y :: rest := List.mem_append_right _ List.mem_cons_self
      have hlive' : a.contains y = true := mem_nodeIds_iff_contains.mp (hperm.mem_iff.mp hy)
      have hnot' : y ∉ placed := fun hm =>
        List.disjoint_of_nodup_append (hperm.nodup_iff.mpr nodup_nodeIds) hm List.mem_cons_self
      have hready : y ∈ s.ready := h.mem_ready hlive' hnot' (ho placed y rest rfl)
      rw [hs] at hready hsorted
      obtain ⟨hleast, hrest⟩ := List.pairwise_cons.mp hsorted
      rw [List.map_cons, List.map_cons]
      rcases List.mem_cons.mp hready with rfl | hready
      · rw [List.append_cons] at ho hperm
        have hnext : InSlotOrder { s with ready }.ready := hrest
        exact List.cons_le_cons _
          (ih (h.place hl hs) (Schedule.inSlotOrder_foldl_supply hnext _) ho hperm)
      · refine le_of_lt (.rel ((hleast y hready).lt_of_ne fun he => ?_))
        obtain rfl := eq_of_contains_index hlive hlive' he
        have hnodup := h.ready_nodup
        rw [hs] at hnodup
        exact (List.nodup_cons.mp hnodup).1 hready

theorem Linked.mem_place_of_ordered (hl : a.Linked) (ho : a.Ordered order) (hx : x ∈ order)
    (hlive : a.contains x = true) : x ∈ a.place a.slots.size a.schedule := by
  induction order using List.reverseRecOn generalizing x with
  | nil => exact absurd hx List.not_mem_nil
  | append_singleton order y ih =>
    rcases List.mem_append.mp hx with hx | hx
    · exact ih ho.of_append hx hlive
    · obtain rfl := List.mem_singleton.mp hx
      by_contra hnot
      obtain ⟨z, hr, hz⟩ := hl.waits_place hlive hnot
      exact hz (ih ho.of_append (ho order x [] rfl z hr) (hl.contains_of_reads hr))

theorem Linked.topologicalOrder_eq_cyclic (hl : a.Linked) (hlive : a.live = a.occupied)
    (hc : ¬ a.Acyclic) : ∃ x, a.topologicalOrder = .error (.cyclic x) ∧ a.contains x = true ∧
      x ∉ a.place a.slots.size a.schedule := by
  have hfails : ¬ ∃ order, a.topologicalOrder = .ok order :=
    (hl.exists_topologicalOrder_iff hlive).not.mpr hc
  unfold topologicalOrder at hfails ⊢
  dsimp only at hfails ⊢
  split at hfails
  · exact absurd ⟨_, rfl⟩ hfails
  · rename_i hlen
    rw [if_neg hlen]
    split at hfails
    · rename_i x hfind
      have hx := mem_nodeIds_iff_contains.mp (List.mem_of_find?_eq_some hfind)
      exact ⟨x, rfl, hx, by simpa using List.find?_some hfind⟩
    · exact absurd ⟨_, rfl⟩ hfails

/-- Without a cycle the order has every live node once, after the producers of its inputs, and is
the least such order when the slots are compared place by place. With a cycle it is an error that
names a live node which no order can contain. -/
theorem topologicalOrder_least (hl : a.Linked) (hlive : a.live = a.occupied) :
    (a.Acyclic → ∃ order, a.topologicalOrder = .ok order ∧ order.Perm a.nodeIds ∧
      a.Ordered order ∧ ∀ other, other.Perm a.nodeIds → a.Ordered other →
        order.map NodeId.index ≤ other.map NodeId.index) ∧
    (¬ a.Acyclic → ∃ x, a.topologicalOrder = .error (.cyclic x) ∧ a.contains x = true ∧
      ∀ order, a.Ordered order → x ∉ order) := by
  constructor
  · intro hc
    refine ⟨_, hl.topologicalOrder_eq hc hlive, hl.place_perm hc, (hl.ordered_place _).1, ?_⟩
    intro other hperm ho
    exact (scheduled_schedule a).place_le hl (inSlotOrder_schedule a) ho hperm _
  · intro hc
    obtain ⟨x, hcyclic, hx, hnot⟩ := hl.topologicalOrder_eq_cyclic hlive hc
    exact ⟨x, hcyclic, hx, fun order ho hmem => hnot (hl.mem_place_of_ordered ho hmem hx)⟩

/-- The parameter that is not read could come earlier, and the order of slots has it last. -/
theorem topologicalOrder_least_recycled :
    recycled.WellFormed ∧ (∃ order, recycled.topologicalOrder = .ok order ∧
      order.Perm recycled.nodeIds ∧ order.map NodeId.index ≤ [1, 2, 5, 0, 3]) ∧
    looped.Linked ∧ looped.live = looped.occupied ∧ ¬ looped.Acyclic ∧
      ∃ x, looped.topologicalOrder = .error (.cyclic x) ∧
        ∀ order, looped.Ordered order → x ∉ order := by
  have hwf := wellFormed_recycled
  have hlive : looped.live = looped.occupied := by decide
  have hother : recycled.Ordered [⟨1, 0⟩, ⟨2, 0⟩, ⟨5, 0⟩, ⟨0, 1⟩, ⟨3, 0⟩] :=
    ((((Ordered.nil.snoc (by decide)).snoc (by decide)).snoc (by decide)).snoc (by decide)).snoc
      (by decide)
  obtain ⟨order, horder, hperm, -, hleast⟩ :=
    (topologicalOrder_least hwf.linked hwf.live).1 hwf.acyclic
  obtain ⟨x, hcyclic, -, hnone⟩ := (topologicalOrder_least linked_looped hlive).2 not_acyclic_looped
  exact ⟨hwf, ⟨order, horder, hperm, hleast _ (by decide) hother⟩, linked_looped, hlive,
    not_acyclic_looped, x, hcyclic, hnone⟩

end Arena

end TensorGraph
