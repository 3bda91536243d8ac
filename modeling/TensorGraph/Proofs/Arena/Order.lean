import TensorGraph.Proofs.Arena.Wiring

/-! # Topological order

In a well-formed arena every live node is placed, once, and after the producers of its inputs.
While nodes are placed, the pending inputs of a node are those whose producers are not placed
yet, and the ready nodes are those that are not placed and have none.
-/

namespace TensorGraph

/-! ### The ready list -/

theorem mem_insertReady {id x : NodeId} {ready : List NodeId} :
    x ∈ insertReady id ready ↔ x = id ∨ x ∈ ready := by
  induction ready with
  | nil => simp [insertReady]
  | cons y ready ih =>
    rw [insertReady]
    split
    · rw [List.mem_cons, ih, List.mem_cons]
      tauto
    · simp

theorem nodup_insertReady {id : NodeId} {ready : List NodeId} (h : ready.Nodup)
    (hid : id ∉ ready) : (insertReady id ready).Nodup := by
  induction ready with
  | nil => simp [insertReady]
  | cons y ready ih =>
    obtain ⟨hy, hready⟩ := List.nodup_cons.mp h
    obtain ⟨hne, hid⟩ := not_or.mp (mt List.mem_cons.mpr hid)
    rw [insertReady]
    split
    · refine List.nodup_cons.mpr ⟨?_, ih hready hid⟩
      rw [mem_insertReady]
      exact fun hm => hm.elim (fun he => hne he.symm) hy
    · exact List.nodup_cons.mpr ⟨List.mem_cons.not.mpr (not_or.mpr ⟨hne, hid⟩), h⟩

namespace Schedule

theorem pending_supply (s : Schedule) (u : Use) : (s.supply u).pending =
    s.pending.setIfInBounds u.node.index (s.pending.getD u.node.index 0 - 1) := by
  unfold supply
  generalize s.pending.getD u.node.index 0 - 1 = left
  by_cases h : left = 0 <;> simp [h, addReady]

theorem ready_supply (s : Schedule) (u : Use) : (s.supply u).ready =
    if s.pending.getD u.node.index 0 - 1 = 0 then insertReady u.node s.ready else s.ready := by
  unfold supply
  generalize s.pending.getD u.node.index 0 - 1 = left
  by_cases h : left = 0 <;> simp [h, addReady]

theorem mem_ready_supply (s : Schedule) (u : Use) {x : NodeId} : x ∈ (s.supply u).ready ↔
    (x = u.node ∧ s.pending.getD u.node.index 0 - 1 = 0) ∨ x ∈ s.ready := by
  rw [s.ready_supply]
  generalize s.pending.getD u.node.index 0 - 1 = left
  by_cases hz : left = 0 <;> simp [hz, mem_insertReady]

theorem nodup_ready_supply (s : Schedule) {u : Use} (h : s.ready.Nodup) (hu : u.node ∉ s.ready) :
    (s.supply u).ready.Nodup := by
  rw [s.ready_supply]
  generalize s.pending.getD u.node.index 0 - 1 = left
  split
  · exact nodup_insertReady h hu
  · exact h

theorem pending_foldl_addReady (ids : List NodeId) (s : Schedule) :
    (ids.foldl addReady s).pending = s.pending := by
  induction ids generalizing s with
  | nil => rfl
  | cons id ids ih => exact ih _

theorem mem_ready_foldl_addReady {ids : List NodeId} {s : Schedule} {x : NodeId} :
    x ∈ (ids.foldl addReady s).ready ↔ x ∈ ids ∨ x ∈ s.ready := by
  induction ids generalizing s with
  | nil => simp
  | cons id ids ih =>
    rw [List.foldl_cons, ih, addReady, mem_insertReady, List.mem_cons]
    tauto

theorem nodup_ready_foldl_addReady {ids : List NodeId} {s : Schedule} (h : s.ready.Nodup)
    (hids : ids.Nodup) (hnew : ∀ id ∈ ids, id ∉ s.ready) :
    (ids.foldl addReady s).ready.Nodup := by
  induction ids generalizing s with
  | nil => exact h
  | cons id ids ih =>
    obtain ⟨hid, hids⟩ := List.nodup_cons.mp hids
    refine ih (nodup_insertReady h (hnew id List.mem_cons_self)) hids fun y hy hm => ?_
    rcases mem_insertReady.mp hm with rfl | hm
    · exact hid hy
    · exact hnew y (List.mem_cons_of_mem _ hy) hm

end Schedule

namespace Arena

variable {β : Type} {a : Arena β} {x y id : NodeId} {n : Node β} {v : Value} {u : Use}
variable {placed : List NodeId} {s : Schedule}

/-- The number of inputs of a node whose producers are not placed. -/
def missing (a : Arena β) (placed : List NodeId) (x : NodeId) : Nat :=
  (a.producers x).countP (· ∉ placed)

def Ordered (a : Arena β) (order : List NodeId) : Prop :=
  ∀ before x after, order = before ++ x :: after → ∀ y ∈ a.producers x, y ∈ before

theorem Ordered.nil : a.Ordered [] := fun before x after he => absurd he (by simp)

theorem Ordered.mem (h : a.Ordered placed) (hx : x ∈ placed) (hy : y ∈ a.producers x) :
    y ∈ placed := by
  obtain ⟨before, after, rfl⟩ := List.append_of_mem hx
  exact List.mem_append_left _ (h before x after rfl y hy)

theorem Ordered.of_append {rest : List NodeId} (h : a.Ordered (placed ++ rest)) :
    a.Ordered placed := by
  rintro before x after rfl
  refine h before x (after ++ rest) ?_
  rw [List.append_assoc, List.cons_append]

theorem Ordered.snoc (h : a.Ordered placed) (hid : ∀ y ∈ a.producers id, y ∈ placed) :
    a.Ordered (placed ++ [id]) := by
  intro before x after he y hy
  rcases List.eq_nil_or_concat after with rfl | ⟨after, z, rfl⟩
  · obtain ⟨rfl, hx⟩ := List.append_inj' he rfl
    obtain rfl : id = x := List.singleton_inj.mp hx
    exact hid y hy
  · rw [List.concat_eq_append, ← List.cons_append, ← List.append_assoc] at he
    obtain ⟨rfl, -⟩ := List.append_inj' he rfl
    exact h before x after rfl y hy

theorem missing_eq_zero : a.missing placed x = 0 ↔ ∀ y ∈ a.producers x, y ∈ placed := by
  simp [missing, List.countP_eq_zero]

theorem missing_snoc (hid : id ∉ placed) :
    a.missing placed x = a.missing (placed ++ [id]) x + (a.producers x).count id := by
  unfold missing
  induction a.producers x with
  | nil => rfl
  | cons y l ih =>
    rw [List.countP_cons, List.countP_cons, List.count_cons, ih]
    by_cases hy : y = id
    · simp [hy, hid]
      omega
    · simp [hy]
      omega

/-! ### The uses of a node -/

theorem mem_allUses_iff (h : a.Linked) :
    u ∈ a.allUses id ↔ ∃ v, a.producer? u = some v ∧ v.node = id := by
  simp only [← h.mem_uses_iff]
  cases hid : a.node? id with
  | none =>
    simp only [allUses, hid, Option.map_none, Option.getD_none, List.not_mem_nil, false_iff]
    rintro ⟨v, hu, rfl⟩
    obtain ⟨n, hn, -⟩ := hasOutput_iff.mp (hasOutput_of_mem_uses hu)
    rw [hid] at hn
    cases hn
  | some n =>
    simp only [allUses, hid, Option.map_some, Option.getD_some, List.mem_flatMap]
    constructor
    · rintro ⟨o, ho, hu⟩
      obtain ⟨port, hport⟩ := List.mem_iff_getElem?.mp ho
      refine ⟨id.output port, ?_, rfl⟩
      rwa [uses_of_output? (output?_eq_some_iff.mpr ⟨n, hid, hport⟩)]
    · rintro ⟨v, hu, rfl⟩
      obtain ⟨m, hm, hlt⟩ := hasOutput_iff.mp (hasOutput_of_mem_uses hu)
      obtain rfl : n = m := Option.some.inj (hid.symm.trans hm)
      refine ⟨n.outputs[v.port], List.getElem_mem hlt, ?_⟩
      rwa [← uses_of_output? (output?_eq_some_iff.mpr ⟨n, hid, List.getElem?_eq_getElem hlt⟩)]

theorem nodup_allUses (h : a.Linked) (id : NodeId) : (a.allUses id).Nodup := by
  cases hid : a.node? id with
  | none => simp [allUses, hid]
  | some n =>
    have huses (port : Nat) (o : Output) (ho : n.outputs[port]? = some o) :
        o.uses = a.uses (id.output port) :=
      (uses_of_output? (output?_eq_some_iff.mpr ⟨n, hid, ho⟩)).symm
    simp only [allUses, hid, Option.map_some, Option.getD_some]
    refine List.nodup_flatMap.mpr ⟨fun o ho => ?_, ?_⟩
    · obtain ⟨port, hport⟩ := List.mem_iff_getElem?.mp ho
      rw [huses port o hport]
      exact h.nodup_uses _
    · refine List.pairwise_iff_getElem.mpr fun i j hi hj hij u hu hu' => ?_
      rw [huses i _ (List.getElem?_eq_getElem hi), h.mem_uses_iff] at hu
      rw [huses j _ (List.getElem?_eq_getElem hj), h.mem_uses_iff, hu] at hu'
      have hport := congrArg Value.port (Option.some.inj hu')
      exact hij.ne hport

theorem countP_allUses (h : a.Linked) (id x : NodeId) :
    (a.allUses id).countP (·.node = x) = (a.producers x).count id := by
  cases hx : a.node? x with
  | none =>
    have hzero : (a.allUses id).countP (·.node = x) = 0 := by
      refine List.countP_eq_zero.mpr fun u hu hux => ?_
      obtain ⟨v, hv, -⟩ := (mem_allUses_iff h).mp hu
      obtain ⟨n, hn, -⟩ := producer?_eq_some_iff.mp hv
      rw [of_decide_eq_true hux, hx] at hn
      cases hn
    rw [hzero]
    simp [producers, hx]
  | some n =>
    have hperm : ((a.allUses id).filter (·.node = x)).Perm
        (usesWhere x n.inputs fun v => v.node = id) := by
      refine (List.perm_ext_iff_of_nodup ((nodup_allUses h id).filter _)
        (nodup_usesWhere _ _ _)).mpr fun u => ?_
      rw [List.mem_filter, mem_allUses_iff h, mem_usesWhere]
      simp only [decide_eq_true_eq]
      constructor
      · rintro ⟨⟨v, hv, rfl⟩, rfl⟩
        obtain ⟨m, hm, hp⟩ := producer?_eq_some_iff.mp hv
        obtain rfl : n = m := Option.some.inj (hx.symm.trans hm)
        exact ⟨rfl, v, hp, rfl⟩
      · rintro ⟨rfl, v, hp, rfl⟩
        exact ⟨⟨v, producer?_eq_some_iff.mpr ⟨n, hx, hp⟩, rfl⟩, rfl⟩
    rw [List.countP_eq_length_filter, hperm.length_eq, length_usesWhere, producers_of_node? hx,
      List.count, List.countP_map]
    refine List.countP_congr fun v _ => ?_
    simp

/-! ### Placing nodes -/

/-- What is placed so far is in order, and of every live node the schedule knows how many inputs
still wait: those that `placed` lacks and those that the uses in `due` are about to supply. -/
structure Scheduled (a : Arena β) (placed : List NodeId) (due : List Use) (s : Schedule) :
    Prop where
  ordered : a.Ordered placed
  nodup : placed.Nodup
  live : ∀ x ∈ placed, a.contains x = true
  size : s.pending.size = a.slots.size
  pending : ∀ x, a.contains x = true →
    s.pending.getD x.index 0 = a.missing placed x + due.countP (·.node = x)
  ready_nodup : s.ready.Nodup
  ready : ∀ x, x ∈ s.ready ↔
    a.contains x = true ∧ x ∉ placed ∧ s.pending.getD x.index 0 = 0

theorem index_lt_of_contains (h : a.contains x = true) : x.index < a.slots.size := by
  obtain ⟨n, hn⟩ := contains_iff.mp h
  obtain ⟨s, hs, -⟩ := node?_eq_some_iff.mp hn
  exact (Array.getElem?_eq_some_iff.mp hs).1

theorem eq_of_contains_index (hx : a.contains x = true) (hy : a.contains y = true)
    (h : x.index = y.index) : x = y := by
  obtain ⟨n, hn⟩ := contains_iff.mp hx
  obtain ⟨m, hm⟩ := contains_iff.mp hy
  exact eq_of_node?_index hn hm h

theorem getD_pending_supply (hsize : s.pending.size = a.slots.size)
    (hlive : a.contains u.node = true) (hx : a.contains x = true) :
    (s.supply u).pending.getD x.index 0 =
      if x = u.node then s.pending.getD u.node.index 0 - 1 else s.pending.getD x.index 0 := by
  have hlt : u.node.index < s.pending.size := hsize ▸ index_lt_of_contains hlive
  rw [s.pending_supply]
  generalize s.pending.getD u.node.index 0 - 1 = left
  by_cases hxu : x = u.node
  · subst hxu
    simp [Array.getD_eq_getD_getElem?, hlt]
  · have hi : u.node.index ≠ x.index := fun he => hxu (eq_of_contains_index hx hlive he.symm)
    simp [Array.getD_eq_getD_getElem?, hxu, hi]

theorem Scheduled.supply {due : List Use} (h : a.Scheduled placed (u :: due) s)
    (hlive : a.contains u.node = true) (hu : u.node ∉ placed) :
    a.Scheduled placed due (s.supply u) := by
  have hcount : s.pending.getD u.node.index 0 - 1 =
      a.missing placed u.node + due.countP (·.node = u.node) := by
    rw [h.pending _ hlive, List.countP_cons]
    simp
  have hwaits : s.pending.getD u.node.index 0 ≠ 0 := by
    rw [h.pending _ hlive, List.countP_cons]
    simp
  have hnot : u.node ∉ s.ready := fun hm => hwaits ((h.ready _).mp hm).2.2
  refine ⟨h.ordered, h.nodup, h.live, ?_, ?_, ?_, ?_⟩
  · rw [s.pending_supply, Array.size_setIfInBounds, h.size]
  · intro x hx
    rw [getD_pending_supply h.size hlive hx]
    by_cases hxu : x = u.node
    · rw [if_pos hxu, hcount, hxu]
    · rw [if_neg hxu, h.pending x hx, List.countP_cons]
      simp [Ne.symm hxu]
  · exact s.nodup_ready_supply h.ready_nodup hnot
  · intro x
    rw [s.mem_ready_supply]
    by_cases hx : a.contains x = true
    · rw [getD_pending_supply h.size hlive hx]
      by_cases hxu : x = u.node
      · subst hxu
        simp [hnot, hlive, hu]
      · rw [if_neg hxu, ← h.ready x]
        simp [hxu]
    · have hne : x ≠ u.node := fun he => hx (he ▸ hlive)
      have hready : x ∉ s.ready := fun hm => hx ((h.ready x).mp hm).1
      simp [hx, hne, hready]

theorem Scheduled.foldl_supply {due : List Use} (h : a.Scheduled placed due s)
    (hdue : ∀ u ∈ due, a.contains u.node = true ∧ u.node ∉ placed) :
    a.Scheduled placed [] (due.foldl Schedule.supply s) := by
  induction due generalizing s with
  | nil => exact h
  | cons u due ih =>
    obtain ⟨hlive, hu⟩ := hdue u List.mem_cons_self
    exact ih (h.supply hlive hu) fun w hw => hdue w (List.mem_cons_of_mem _ hw)

/-- A ready node placed: its uses are due. -/
theorem Scheduled.place {ready : List NodeId} (hl : a.Linked) (h : a.Scheduled placed [] s)
    (hs : s.ready = id :: ready) :
    a.Scheduled (placed ++ [id]) [] ((a.allUses id).foldl Schedule.supply { s with ready }) := by
  have hmem : id ∈ s.ready := hs ▸ List.mem_cons_self
  obtain ⟨hlive, hid, hzero⟩ := (h.ready id).mp hmem
  have hnodup := h.ready_nodup
  rw [hs, List.nodup_cons] at hnodup
  have hinputs : ∀ y ∈ a.producers id, y ∈ placed := by
    have hp := h.pending id hlive
    rw [hzero] at hp
    exact missing_eq_zero.mp (by simpa using hp.symm)
  have hnext : a.Scheduled (placed ++ [id]) (a.allUses id) { s with ready } := by
    refine ⟨h.ordered.snoc hinputs, ?_, ?_, h.size, ?_, hnodup.2, ?_⟩
    · exact h.nodup.append (List.nodup_singleton _) (List.disjoint_singleton.mpr hid)
    · intro x hx
      rcases List.mem_append.mp hx with hx | hx
      · exact h.live x hx
      · exact List.mem_singleton.mp hx ▸ hlive
    · intro x hx
      rw [countP_allUses hl, ← missing_snoc hid, h.pending x hx]
      rfl
    · intro x
      have hiff := h.ready x
      rw [hs, List.mem_cons] at hiff
      by_cases hx : x = id
      · subst hx
        simp [hnodup.1]
      · simpa [hx] using hiff
  refine hnext.foldl_supply fun u hu => ?_
  obtain ⟨v, hv, hvid⟩ := (mem_allUses_iff hl).mp hu
  have hr : a.Reads u.node id := hvid ▸ reads_of_producer? hv
  refine ⟨contains_of_reads_left hr, fun hplaced => ?_⟩
  rcases List.mem_append.mp hplaced with hp | hp
  · exact hid (h.ordered.mem hp hr)
  · exact hid (hinputs id (List.mem_singleton.mp hp ▸ hr))

theorem Scheduled.waits (h : a.Scheduled placed [] s) (hs : s.ready = [])
    (hx : a.contains x = true) (hnot : x ∉ placed) : ∃ y, a.Reads x y ∧ y ∉ placed := by
  by_contra hnone
  have hzero : a.missing placed x = 0 := missing_eq_zero.mpr fun y hy => by
    by_contra hy'
    exact hnone ⟨y, hy, hy'⟩
  have hready : x ∈ s.ready := (h.ready x).mpr ⟨hx, hnot, by rw [h.pending x hx, hzero]; rfl⟩
  rw [hs] at hready
  exact List.not_mem_nil hready

theorem Scheduled.order (hl : a.Linked) (h : a.Scheduled placed [] s) (count : Nat) :
    a.Ordered (placed ++ a.place count s) ∧ (placed ++ a.place count s).Nodup ∧
      ∀ x ∈ placed ++ a.place count s, a.contains x = true := by
  induction count generalizing placed s with
  | zero =>
    rw [Arena.place, List.append_nil]
    exact ⟨h.ordered, h.nodup, h.live⟩
  | succ count ih =>
    rw [Arena.place]
    split
    · rw [List.append_nil]
      exact ⟨h.ordered, h.nodup, h.live⟩
    · rename_i id ready hs
      rw [List.append_cons]
      exact ih (h.place hl hs)

theorem subperm_nodeIds (hnodup : placed.Nodup) (hlive : ∀ x ∈ placed, a.contains x = true) :
    placed.Subperm a.nodeIds :=
  List.subperm_of_subset hnodup fun x hx => mem_nodeIds_iff_contains.mpr (hlive x hx)

theorem Scheduled.order_waits (hl : a.Linked) {count : Nat} (h : a.Scheduled placed [] s)
    (hcount : a.occupied ≤ placed.length + count) (hx : a.contains x = true)
    (hnot : x ∉ placed ++ a.place count s) : ∃ y, a.Reads x y ∧ y ∉ placed ++ a.place count s := by
  induction count generalizing placed s with
  | zero =>
    have hperm := (subperm_nodeIds h.nodup h.live).perm_of_length_le
      (by rw [length_nodeIds]; exact hcount)
    have hmem : x ∈ placed := hperm.mem_iff.mpr (mem_nodeIds_iff_contains.mpr hx)
    exact absurd (List.mem_append_left _ hmem) hnot
  | succ count ih =>
    rw [Arena.place] at hnot ⊢
    split at hnot
    · rename_i hs
      rw [List.append_nil] at hnot ⊢
      exact h.waits hs hx hnot
    · rename_i id ready hs
      rw [List.append_cons] at hnot ⊢
      exact ih (h.place hl hs) (by rw [List.length_append, List.length_singleton]; omega) hnot

theorem pending_of_contains {n : Node β} (h : a.node? x = some n) :
    (a.slots.map inputCount).getD x.index 0 = n.inputs.length := by
  obtain ⟨s, hs, -, hn⟩ := node?_eq_some_iff.mp h
  simp [Array.getD_eq_getD_getElem?, hs, inputCount, hn]

theorem scheduled_schedule (a : Arena β) : a.Scheduled [] [] a.schedule where
  ordered := .nil
  nodup := .nil
  live x hx := absurd hx List.not_mem_nil
  size := by rw [schedule, Schedule.pending_foldl_addReady, Array.size_map]
  pending x hx := by
    obtain ⟨n, hn⟩ := contains_iff.mp hx
    rw [schedule, Schedule.pending_foldl_addReady, pending_of_contains hn]
    simp [missing, producers_of_node? hn]
  ready_nodup := Schedule.nodup_ready_foldl_addReady .nil (nodup_nodeIds.filter _)
    fun _ _ => List.not_mem_nil
  ready x := by
    rw [schedule, Schedule.mem_ready_foldl_addReady, Schedule.pending_foldl_addReady,
      List.mem_filter, mem_nodeIds_iff_contains]
    simp

theorem Linked.ordered_place (hl : a.Linked) (count : Nat) :
    a.Ordered (a.place count a.schedule) ∧ (a.place count a.schedule).Nodup ∧
      ∀ x ∈ a.place count a.schedule, a.contains x = true :=
  (scheduled_schedule a).order hl count

theorem Linked.waits_place (hl : a.Linked) (hx : a.contains x = true)
    (hnot : x ∉ a.place a.slots.size a.schedule) :
    ∃ y, a.Reads x y ∧ y ∉ a.place a.slots.size a.schedule :=
  (scheduled_schedule a).order_waits hl
    (by rw [List.length_nil, Nat.zero_add]; exact occupied_le_size) hx hnot

/-- Without a cycle all live nodes are placed: the lowest node that is not would wait for none. -/
theorem Linked.place_perm (hl : a.Linked) (hc : a.Acyclic) :
    (a.place a.slots.size a.schedule).Perm a.nodeIds := by
  obtain ⟨-, hnodup, hlive⟩ := hl.ordered_place a.slots.size
  obtain ⟨rank, hrank, -⟩ := hc.exists_rank hl
  have hall (x : NodeId) (hx : a.contains x = true) : x ∈ a.place a.slots.size a.schedule := by
    induction hk : rank x using Nat.strong_induction_on generalizing x with
    | _ k ih =>
      by_contra hnot
      obtain ⟨y, hr, hy⟩ := hl.waits_place hx hnot
      exact hy (ih (rank y) (hk ▸ hrank x y hr) y (hl.contains_of_reads hr) rfl)
  refine (List.perm_ext_iff_of_nodup hnodup nodup_nodeIds).mpr fun x => ?_
  rw [mem_nodeIds_iff_contains]
  exact ⟨hlive x, hall x⟩

theorem Linked.topologicalOrder_eq (hl : a.Linked) (hc : a.Acyclic) (hlive : a.live = a.occupied) :
    a.topologicalOrder = .ok (a.place a.slots.size a.schedule) := by
  rw [topologicalOrder, if_pos]
  rw [(hl.place_perm hc).length_eq, length_nodeIds, hlive]

/-- Every live node of a well-formed arena is placed once, after the producers of its inputs. -/
theorem WellFormed.topologicalOrder_eq (h : a.WellFormed) :
    ∃ order, a.topologicalOrder = .ok order ∧ a.Ordered order ∧ order.Perm a.nodeIds :=
  ⟨_, h.linked.topologicalOrder_eq h.acyclic h.live, (h.linked.ordered_place _).1,
    h.linked.place_perm h.acyclic⟩

/-- Whenever there is an order, it has all live nodes, each after the producers of its inputs. -/
theorem Linked.topologicalOrder_sound (hl : a.Linked) (hlive : a.live = a.occupied)
    {order : List NodeId} (e : a.topologicalOrder = .ok order) :
    a.Ordered order ∧ order.Perm a.nodeIds := by
  obtain ⟨hordered, hnodup, hcontains⟩ := hl.ordered_place a.slots.size
  have hsub := subperm_nodeIds hnodup hcontains
  rw [topologicalOrder] at e
  split at e
  · rename_i hlen
    obtain rfl := Except.ok.inj e
    exact ⟨hordered, hsub.perm_of_length_le (by rw [length_nodeIds, hlen, hlive])⟩
  · split at e
    · cases e
    · rename_i hnone
      obtain rfl := Except.ok.inj e
      refine ⟨hordered, (List.perm_ext_iff_of_nodup hnodup nodup_nodeIds).mpr fun x => ?_⟩
      refine ⟨fun hx => mem_nodeIds_iff_contains.mpr (hcontains x hx), fun hx => ?_⟩
      simpa using List.find?_eq_none.mp hnone x hx

/-- A node of an ordered list that has all readers comes after what it reads. -/
theorem Ordered.rankedBy {order : List NodeId} (h : a.Ordered order)
    (hall : ∀ x, a.contains x = true → x ∈ order) : a.RankedBy order.idxOf := by
  intro x y hr
  obtain ⟨before, after, rfl, hx⟩ :=
    List.eq_append_cons_of_mem (hall x (contains_of_reads_left hr))
  have hy := h before x after rfl y hr
  change (before ++ x :: after).idxOf y < (before ++ x :: after).idxOf x
  rw [List.idxOf_append_of_mem hy, List.idxOf_append_of_notMem hx, List.idxOf_cons_self]
  exact List.idxOf_lt_length_of_mem hy

theorem Ordered.acyclic {order : List NodeId} (h : a.Ordered order)
    (hall : ∀ x, a.contains x = true → x ∈ order) : a.Acyclic := (h.rankedBy hall).acyclic

end Arena

end TensorGraph
