import TensorGraph.Proofs.Rewrite.Rewiring

/-! # Tightness

A graph is tight if none of its nodes is dead. Releasing works through everything that dies on
the way, so that a commit or an unpinning leaves a tight graph tight.
-/

namespace TensorGraph.Arena

variable {β : Type} {a b : Arena β} {x id : NodeId} {n : Node β} {v : Value} {u : Use} {k : Nat}
variable {p : Plan β} {ids work rest : List NodeId}

/-- A live node without pins that is no anchor and that nothing reads. -/
structure Dead (a : Arena β) (x : NodeId) : Prop where
  kind : ∃ kind, a.kind? x = some kind ∧ kind.isAnchor = false
  pins : a.pins x = 0
  unused : ∀ v, v.node = x → a.uses v = []

def Tight (a : Arena β) : Prop := ∀ x, ¬ a.Dead x

def DeadWithin (a : Arena β) (l : List NodeId) : Prop := ∀ x, a.Dead x → x ∈ l

theorem tight_iff_deadWithin : a.Tight ↔ a.DeadWithin [] := by
  simp [Tight, DeadWithin]

theorem isUnused_iff (h : a.node? x = some n) :
    n.isUnused = true ↔ ∀ v, v.node = x → a.uses v = [] := by
  simp only [Node.isUnused, List.all_eq_true, List.isEmpty_iff]
  constructor
  · rintro hall v rfl
    rw [uses_eq_node?, h, Option.bind_some, List.getElem?_map]
    cases ho : n.outputs[v.port]? with
    | none => rfl
    | some o => exact hall o (List.mem_of_getElem? ho)
  · intro hall o ho
    obtain ⟨port, hport⟩ := List.mem_iff_getElem?.mp ho
    have huses := hall (x.output port) rfl
    rwa [uses_of_output? (output?_eq_some_iff.mpr ⟨n, h, hport⟩)] at huses

theorem dead_iff : a.Dead x ↔ ∃ n, a.dead? x = some n := by
  simp only [dead?_eq_some_iff]
  constructor
  · rintro ⟨⟨kind, hk, hanchor⟩, hp, hunused⟩
    obtain ⟨n, hn, rfl⟩ := kind?_eq_some_iff.mp hk
    exact ⟨n, hn, hp, hanchor, (isUnused_iff hn).mpr hunused⟩
  · rintro ⟨n, hn, hp, hanchor, hunused⟩
    exact ⟨⟨n.kind, kind?_eq_some_iff.mpr ⟨n, hn, rfl⟩, hanchor⟩, hp, (isUnused_iff hn).mp hunused⟩

theorem Dead.not_mem_uses (h : a.Dead v.node) : u ∉ a.uses v := by
  rw [h.unused v rfl]
  exact List.not_mem_nil

theorem Dead.of_pins (h : b.Dead x) (hnode : b.node? = a.node?) (hpins : a.pins x ≤ b.pins x) :
    a.Dead x :=
  ⟨kind?_congr (bare?_of_node? hnode) ▸ h.kind, Nat.eq_zero_of_le_zero (h.pins ▸ hpins),
    uses_of_node? hnode ▸ h.unused⟩

theorem DeadWithin.bump {l : List NodeId} (h : a.DeadWithin l) : a.bump.DeadWithin l :=
  fun x hx => h x (hx.of_pins rfl le_rfl)

theorem tight_of_nodeIds (h : ∀ x ∈ a.nodeIds, a.dead? x = none) : a.Tight := by
  intro x hx
  obtain ⟨n, hn⟩ := dead_iff.mp hx
  have hid := mem_nodeIds_iff.mpr ⟨n, (dead?_eq_some_iff.mp hn).1⟩
  rw [h x hid] at hn
  cases hn

/-- What dies when a node is released was read by it. -/
theorem DeadWithin.drop (h : a.DeadWithin (id :: rest)) (ha : a.WellFormed)
    (hd : a.dead? id = some n) :
    (a.drop id n).DeadWithin (n.inputs.map Value.node ++ rest) := by
  intro x hx
  obtain ⟨⟨kind, hk, hanchor⟩, hp, hunused⟩ := hx
  have hne : x ≠ id := by
    rintro rfl
    rw [kind?_eq_bare, bare?_drop hd, if_pos rfl] at hk
    cases hk
  rw [kind?_eq_bare, bare?_drop hd, if_neg hne, ← kind?_eq_bare] at hk
  rw [pins_drop hd] at hp
  by_cases hin : x ∈ n.inputs.map Value.node
  · exact List.mem_append_left _ hin
  · refine List.mem_append_right _ ?_
    have hdead : a.Dead x := by
      refine ⟨⟨kind, hk, hanchor⟩, hp, fun v hv => ?_⟩
      have hnone := hunused v hv
      rw [uses_drop ha hd, if_neg (hv ▸ hne), List.filter_eq_nil_iff] at hnone
      refine List.eq_nil_iff_forall_not_mem.mpr fun u hu => ?_
      have hid : u.node = id := by simpa using hnone u hu
      obtain ⟨m, hm, hport⟩ := producer?_eq_some_iff.mp (ha.linked.mem_uses_iff.mp hu)
      rw [hid, (dead?_eq_some_iff.mp hd).1] at hm
      obtain rfl := Option.some.inj hm
      exact hin (hv ▸ List.mem_map_of_mem (List.mem_of_getElem? hport))
    exact (List.mem_cons.mp (h x hdead)).resolve_left hne

theorem DeadWithin.sweep (h : a.DeadWithin (work ++ rest)) (ha : a.WellFormed) :
    (a.sweep work).1.DeadWithin rest := by
  fun_induction Arena.sweep a work with
  | case1 a => exact h
  | case2 a id work hd ih =>
    refine ih (fun x hx => (List.mem_cons.mp (h x hx)).resolve_left ?_) ha
    rintro rfl
    obtain ⟨n, hn⟩ := dead_iff.mp hx
    rw [hd] at hn
    cases hn
  | case3 a id work n hd _ _ b count hb ih =>
    have hdrop : (a.drop id n).DeadWithin ((n.inputs.map Value.node).reverse ++ work ++ rest) := by
      intro x hx
      have hmem := DeadWithin.drop h ha hd x hx
      rw [List.append_assoc, List.mem_append, List.mem_reverse]
      exact List.mem_append.mp hmem
    have hrest := ih hdrop (ha.drop hd)
    rwa [hb] at hrest

theorem DeadWithin.release (h : a.DeadWithin (id :: rest)) (ha : a.WellFormed) :
    (a.release id).1.DeadWithin rest := by
  have hsweep : (a.sweep [id]).1.DeadWithin rest := DeadWithin.sweep h ha
  unfold Arena.release
  split
  rename_i b count hb
  rw [hb] at hsweep
  dsimp only
  split
  · exact hsweep
  · exact hsweep.bump

theorem DeadWithin.releaseAll (h : a.DeadWithin (ids ++ rest)) (ha : a.WellFormed) :
    (a.releaseAll ids).1.DeadWithin rest := by
  induction ids generalizing a with
  | nil => exact h
  | cons id ids ih =>
    exact ih (DeadWithin.release h ha) ((releases_release a id).wellFormed ha)

/-! ### Commits -/

theorem Rewired.producer?_old (h : a.Rewired b p ids) (hu : u.node ∉ ids) :
    b.producer? u = (a.producer? u).map (p.redirect ids) := by
  rw [producer?_eq_bare, h.old _ hu, producer?_eq_bare, Option.bind_map]
  cases a.bare? u.node with
  | none => rfl
  | some n => simp

theorem Rewired.not_mem_of_contains (h : a.Rewired b p ids) (hx : a.contains x = true) :
    x ∉ ids := fun hm => h.fresh x hm hx

/-- What is dead then was dead before, was inserted, or lost its readers to a replacement. -/
theorem Rewired.deadWithin (h : a.Rewired b p ids) (ha : a.WellFormed) {l : List NodeId}
    (hl : a.DeadWithin l) : b.DeadWithin (p.replacements.map (·.1.node) ++ ids ++ l) := by
  intro x hx
  by_cases hmem : x ∈ ids
  · exact List.mem_append_left _ (List.mem_append_right _ hmem)
  by_cases hdead : a.Dead x
  · exact List.mem_append_right _ (hl x hdead)
  refine List.mem_append_left _ (List.mem_append_left _ ?_)
  obtain ⟨⟨kind, hk, hanchor⟩, hp, hunused⟩ := hx
  rw [h.kind?_old hmem] at hk
  rw [h.pins] at hp
  have hused : ∃ v, v.node = x ∧ a.uses v ≠ [] := by
    by_contra hnone
    push Not at hnone
    exact hdead ⟨⟨kind, hk, hanchor⟩, hp, hnone⟩
  obtain ⟨v, rfl, hv⟩ := hused
  obtain ⟨u, hu⟩ := List.exists_mem_of_ne_nil _ hv
  have hproducer := ha.linked.mem_uses_iff.mp hu
  have hold := h.not_mem_of_contains (contains_of_reads_left (reads_of_producer? hproducer))
  rcases redirectAll_cases (p.targets ids) v with ⟨he, -⟩ | ⟨⟨r, hr, he⟩, -⟩
  · have hb : b.producer? u = some v := by
      rw [h.producer?_old hold, hproducer, Option.map_some, Plan.redirect, he]
    have hmem := h.wellFormed.linked.mem_uses_iff.mpr hb
    rw [hunused v rfl] at hmem
    exact absurd hmem List.not_mem_nil
  · obtain ⟨s, hs, rfl⟩ := List.mem_map.mp hr
    exact he ▸ List.mem_map_of_mem hs

theorem DeadWithin.apply {l : List NodeId} (hl : a.DeadWithin l) (ha : a.WellFormed)
    (hp : p.Accepted a) : (a.apply p).1.DeadWithin l := by
  have h := rewired_rewire ha hp
  rw [apply_eq]
  exact (DeadWithin.releaseAll (h.deadWithin ha hl) h.wellFormed).bump

theorem Dead.of_apply (hx : (a.apply p).1.Dead x) (ha : a.WellFormed) (hp : p.Accepted a) :
    a.Dead x := by
  have hl : a.DeadWithin (a.nodeIds.filter fun x => (a.dead? x).isSome) := by
    intro x hx
    obtain ⟨n, hn⟩ := dead_iff.mp hx
    apply List.mem_filter.mpr
    exact ⟨mem_nodeIds_iff.mpr ⟨n, (dead?_eq_some_iff.mp hn).1⟩, Option.isSome_of_eq_some hn⟩
  have hmem := hl.apply ha hp x hx
  exact dead_iff.mpr (Option.isSome_iff_exists.mp (List.mem_filter.mp hmem).2)

theorem Tight.apply (ht : a.Tight) (ha : a.WellFormed) (hp : p.Accepted a) :
    (a.apply p).1.Tight :=
  fun x hx => ht x (hx.of_apply ha hp)

/-! ### Pins -/

theorem Tight.pin (ht : a.Tight) (e : a.pin id = .ok b) : b.Tight := by
  obtain ⟨⟨hid, hlt⟩, rfl⟩ := pin_eq_ok_iff.mp e
  refine fun x hx => ht x (hx.of_pins (node?_modifyPins _ _) ?_)
  rw [pins_raised hid hlt]
  split
  · rename_i hy
    rw [hy]
    exact Nat.le_succ _
  · exact le_rfl

/-- Unpinning releases what dies by it. -/
theorem DeadWithin.unpin {l : List NodeId} (h : a.DeadWithin l) (ha : a.WellFormed)
    (e : a.unpin id = .ok (b, k)) : b.DeadWithin l := by
  obtain ⟨hid, he⟩ := unpin_eq_ok_iff.mp e
  have hdead : (a.modifyPins id.index dropPin).DeadWithin (id :: l) := by
    intro x hx
    by_cases hne : x = id
    · exact hne ▸ List.mem_cons_self
    · refine List.mem_cons_of_mem _ (h x (hx.of_pins (node?_modifyPins _ _) ?_))
      rw [pins_dropped hid, if_neg hne]
  obtain rfl : b = _ := congrArg Prod.fst he
  exact DeadWithin.release hdead (ha.modifyPins _ hid)

theorem Tight.unpin (ht : a.Tight) (ha : a.WellFormed) (e : a.unpin id = .ok (b, k)) :
    b.Tight :=
  tight_iff_deadWithin.mpr ((tight_iff_deadWithin.mp ht).unpin ha e)

end TensorGraph.Arena
