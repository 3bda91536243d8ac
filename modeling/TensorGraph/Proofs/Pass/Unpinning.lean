import TensorGraph.Proofs.Pass.Visit

/-! # Visits that succeed

In a graph without pins a visit fails only if the commit does: the nodes of the match stay while
they are pinned, so each of them can be unpinned again. Those that nothing reads by then are gone
afterwards.
-/

namespace TensorGraph

namespace Arena

variable {β : Type} {a b c : Arena β} {x y id : NodeId} {n : Node β} {v : Value} {u : Use} {k : Nat}
variable {ids : List NodeId}

def Unpinned (a : Arena β) : Prop := ∀ x, a.contains x = true → a.pins x = 0

theorem unpinned_of_nodeIds (h : ∀ x ∈ a.nodeIds, a.pins x = 0) : a.Unpinned := fun x hx =>
  h x (mem_nodeIds_iff_contains.mpr hx)

/-- One arena is well formed and what is left of the other. -/
structure Part (a b : Arena β) : Prop where
  wellFormed : b.WellFormed
  bare : ∀ x, b.contains x = true → b.bare? x = a.bare? x
  table : b.table = a.table

namespace Part

theorem refl (h : a.WellFormed) : a.Part a := ⟨h, fun _ _ => rfl, rfl⟩

theorem contains (h : a.Part b) (hx : b.contains x = true) : a.contains x = true := by
  rw [contains_eq_bare, ← h.bare x hx, ← contains_eq_bare]
  exact hx

theorem trans (h : a.Part b) (h' : b.Part c) : a.Part c where
  wellFormed := h'.wellFormed
  bare x hx := (h'.bare x hx).trans (h.bare x (h'.contains hx))
  table := h'.table.trans h.table

theorem kind? (h : a.Part b) (hx : b.contains x = true) : b.kind? x = a.kind? x := by
  rw [kind?_eq_bare, kind?_eq_bare, h.bare x hx]

theorem producer? (h : a.Part b) (hu : b.producer? u = some v) : a.producer? u = some v := by
  have hx := contains_of_reads_left (reads_of_producer? hu)
  rwa [producer?_eq_bare, ← h.bare _ hx, ← producer?_eq_bare]

theorem reads (h : a.Part b) (hr : b.Reads x y) : a.Reads x y := by
  obtain ⟨u, v, hu, rfl, rfl⟩ := mem_producers_iff.mp hr
  exact reads_of_producer? (h.producer? hu)

theorem uses_eq_nil (h : a.Part b) (ha : a.Linked) (hv : a.uses v = []) : b.uses v = [] := by
  refine List.eq_nil_iff_forall_not_mem.mpr fun u hu => ?_
  have hmem := ha.mem_uses_iff.mpr (h.producer? (h.wellFormed.linked.mem_uses_iff.mp hu))
  rw [hv] at hmem
  exact absurd hmem List.not_mem_nil

end Part

theorem Releases.part (h : a.Releases k b) (ha : a.WellFormed) : a.Part b :=
  ⟨h.wellFormed ha, (h.remains ha).bare, (h.remains ha).table⟩

theorem not_contains_release (ha : a.WellFormed) (hd : a.dead? id = some n) :
    ¬ (a.release id).1.contains id = true := by
  have hsweep : (a.sweep [id]).1 =
      ((a.drop id n).sweep ((n.inputs.map Value.node).reverse ++ [])).1 := by
    rw [sweep]
    split
    · rename_i hnone
      rw [hd] at hnone
      cases hnone
    · rename_i m hm
      obtain rfl := Option.some.inj (hd.symm.trans hm)
      rfl
  have hpart := (releases_sweep (a.drop id n) ((n.inputs.map Value.node).reverse ++ [])).part
    (ha.drop hd)
  have hgone : ¬ (a.sweep [id]).1.contains id = true := by
    rw [hsweep]
    intro hc
    have hdrop := hpart.contains hc
    rw [contains_drop hd] at hdrop
    simp at hdrop
  have hrelease : (a.release id).1 =
      if (a.sweep [id]).2 = 0 then (a.sweep [id]).1 else (a.sweep [id]).1.bump := rfl
  rw [hrelease]
  split <;> exact hgone

end Arena

namespace PatternPass

open Arena

variable {p : PatternPass} {g h : Graph} {ids : List NodeId} {root : NodeId} {m : Match} {k : Nat}

theorem exists_unpin {id : NodeId} (hg : g.WellFormed) (hc : g.contains id = true) :
    ∃ h k, g.unpin id = .ok (h, k) ∧ g.Part h ∧
      (∀ x, h.pins x = if x = id then g.pins id - 1 else g.pins x) ∧
      (∀ x, g.contains x = true → x ≠ id → g.pins x ≠ 0 → h.contains x = true) ∧
      (g.pins id = 1 → (∀ kind, g.kind? id = some kind → kind.isAnchor = false) →
        (∀ v, v.node = id → g.uses v = []) → ¬ h.contains id = true) := by
  let g' := g.modifyPins id.index dropPin
  have hnode : g'.node? = g.node? := node?_modifyPins _ _
  have hpins (x : NodeId) : g'.pins x = if x = id then g.pins id - 1 else g.pins x :=
    pins_dropped hc
  have hg' : g'.WellFormed := hg.modifyPins _ hc
  have hremains := (releases_release g' id).remains hg'
  refine ⟨(g'.release id).1, (g'.release id).2, unpin_eq_ok_iff.mpr ⟨hc, rfl⟩,
    ⟨(releases_release g' id).wellFormed hg', fun x hx => ?_, hremains.table⟩, fun x => ?_,
    fun x hx hne hpos => ?_, fun hone hanchor hunused => ?_⟩
  · rw [hremains.bare x hx, bare?, hnode, bare?]
  · rw [hremains.pins, hpins]
  · obtain ⟨n, hn⟩ := contains_iff.mp hx
    refine hremains.kept x n ((congrFun hnode x).trans hn) (.inl ?_)
    rwa [hpins, if_neg hne]
  · obtain ⟨n, hn⟩ := contains_iff.mp hc
    refine not_contains_release hg'
      (dead?_eq_some_iff.mpr ⟨(congrFun hnode id).trans hn, ?_, ?_, ?_⟩)
    · rw [hpins, if_pos rfl, hone]
    · exact hanchor n.kind (congrArg (Option.map Node.kind) hn)
    · exact (isUnused_iff hn).mpr hunused

/-- Unpinning pinned nodes succeeds and takes one pin from each of them. Those that nothing else
holds are gone. -/
theorem unpinAll_eq (hg : g.WellFormed) (hids : ids.Nodup)
    (hlive : ∀ id ∈ ids, g.contains id = true) (hpins : ∀ id ∈ ids, g.pins id ≠ 0) :
    ∃ h k, unpinAll g ids = (h, k, none) ∧ g.Part h ∧
      (∀ x, h.pins x = g.pins x - if x ∈ ids then 1 else 0) ∧
      ∀ id ∈ ids, g.pins id = 1 → (∀ kind, g.kind? id = some kind → kind.isAnchor = false) →
        (∀ v, v.node = id → g.uses v = []) → ¬ h.contains id = true := by
  induction ids generalizing g with
  | nil => exact ⟨g, 0, rfl, .refl hg, fun x => rfl, fun _ hid => absurd hid List.not_mem_nil⟩
  | cons id ids ih =>
    obtain ⟨hid, hids⟩ := List.nodup_cons.mp hids
    obtain ⟨hc, hlive⟩ := List.forall_mem_cons.mp hlive
    obtain ⟨-, hpins⟩ := List.forall_mem_cons.mp hpins
    obtain ⟨g', k, hunpin, hpart, hpins', hkept, hgone'⟩ := exists_unpin hg hc
    have hne {x : NodeId} (hx : x ∈ ids) : x ≠ id := fun he => hid (he ▸ hx)
    have hsame : ∀ x ∈ ids, g'.pins x = g.pins x := fun x hx => by rw [hpins', if_neg (hne hx)]
    have hlive' : ∀ x ∈ ids, g'.contains x = true := fun x hx =>
      hkept x (hlive x hx) (hne hx) (hpins x hx)
    obtain ⟨h, l, e, hh, hall, hgone⟩ := ih hpart.wellFormed hids hlive' fun x hx => by
      rw [hsame x hx]
      exact hpins x hx
    refine ⟨h, k + l, ?_, hpart.trans hh, fun x => ?_, List.forall_mem_cons.mpr ⟨?_, ?_⟩⟩
    · rw [unpinAll_cons_ok hunpin, e]
    · rw [hall, hpins']
      by_cases hx : x = id
      · simp [hx, hid]
      · simp [hx]
    · exact fun hone hanchor hunused hc => hgone' hone hanchor hunused (hh.contains hc)
    · intro x hx hone hanchor hunused
      refine hgone x hx ((hsame x hx).trans hone) (fun kind hkind => ?_) fun v hv =>
        hpart.uses_eq_nil hg.linked (hunused v hv)
      rw [hpart.kind? (hlive' x hx)] at hkind
      exact hanchor kind hkind

/-! ### Visits -/

theorem table_pinned : (g.pinned ids).table = g.table := by
  unfold pinned
  induction ids generalizing g with
  | nil => rfl
  | cons id ids ih => exact ih

theorem bare?_pinned : (g.pinned ids).bare? = g.bare? :=
  funext fun x => by rw [bare?, node?_pinned, bare?]

theorem commitMatch_of_accepted (h : ∀ plan, p.rewrite g m = .ok plan → plan.Accepted g)
    (hfits : p.rewrite g m ≠ .error .overflow) :
    p.commitMatch g m = (g, .ok none) ∨ ∃ plan, p.rewrite g m = .ok plan ∧
      p.commitMatch g m = ((g.apply plan).1, .ok (some (g.apply plan).2)) := by
  unfold PatternPass.commitMatch
  split
  · rename_i hover
    exact absurd hover hfits
  · exact .inl rfl
  · rename_i plan hplan
    split
    · exact .inl rfl
    · refine .inr ⟨plan, hplan, ?_⟩
      rw [commit_eq_ok_iff.mpr ⟨h plan hplan, rfl⟩]

/-- Nodes that keep the pins that they were given can be unpinned again, which leaves the pins from
before. -/
theorem unpinAll_restores (hh : h.WellFormed) (hids : ids.Nodup)
    (hpin : g.Pinnable ids) (hpins : h.pins = (g.pinned ids).pins)
    (hkept : ∀ id ∈ ids, h.contains id = true) :
    ∃ i k, unpinAll h ids = (i, k, none) ∧ h.Part i ∧ i.pins = g.pins ∧
      ∀ id ∈ ids, g.pins id = 0 → (∀ kind, h.kind? id = some kind → kind.isAnchor = false) →
        (∀ v, v.node = id → h.uses v = []) → ¬ i.contains id = true := by
  have hpinned (x : NodeId) : h.pins x = g.pins x + if x ∈ ids then 1 else 0 := by
    rw [hpins, pins_pinned hids hpin]
  obtain ⟨i, k, e, hpart, hall, hgone⟩ := unpinAll_eq hh hids hkept fun id hid => by
    rw [hpinned, if_pos hid]
    exact Nat.succ_ne_zero _
  refine ⟨i, k, e, hpart, funext fun x => ?_, fun id hid hzero => hgone id hid ?_⟩
  · rw [hall, hpinned, Nat.add_sub_cancel]
  · rw [hpinned, hzero, if_pos hid]

/-- What a commit adds to the outcome of a run, with the nodes released as the match is unpinned. -/
def added (p : PatternPass) (root : NodeId) (k : Nat) :
    Except GraphError (Option Commit) → Except TransformError Outcome
  | .error cause => .error (.ofEdit p.name (some root) cause)
  | .ok none => .ok ⟨false, 1, 0, k⟩
  | .ok (some done) => .ok ⟨true, 1, 1, k + done.released⟩

theorem visitMatch_eq {c : Graph} {committed : Except GraphError (Option Commit)}
    (hpin : g.Pinnable m.nodes)
    (hcommit : p.commitMatch (g.pinned m.nodes) m = (c, committed))
    (hfits : committed ≠ .error .overflow)
    (hunpin : unpinAll c m.nodes = (h, k, none)) :
    p.visitMatch g root m = (h, p.added root k committed) := by
  have hpinned : pinAll g m.nodes = .ok (g.pinned m.nodes) :=
    (pinAll_eq_ok_iff m.nodup_nodes).mpr ⟨hpin, rfl⟩
  simp only [visitMatch, hpinned, hcommit, hunpin]
  rcases committed with cause | _ | done
  · cases cause <;> first | exact absurd rfl hfits | rfl
  · rfl
  · rfl

/-- A rewrite that overflows ends the program. -/
theorem visitMatch_of_overflow (hpin : g.Pinnable m.nodes)
    (h : p.rewrite (g.pinned m.nodes) m = .error .overflow) :
    p.visitMatch g root m = (g, .error .overflow) := by
  have hpinned : pinAll g m.nodes = .ok (g.pinned m.nodes) :=
    (pinAll_eq_ok_iff m.nodup_nodes).mpr ⟨hpin, rfl⟩
  simp only [visitMatch, hpinned, commitMatch, h]

/-- What is left of a graph after a commit, once the nodes of the match are unpinned. -/
structure Replaced (g h : Graph) (m : Match) (plan : Plan Body) (c : Graph) (ids : List NodeId) :
    Prop where
  rewired : (g.pinned m.nodes).Rewired c plan ids
  part : c.Part h
  gone : ∀ id ∈ m.nodes, (∀ kind, g.kind? id = some kind → kind.isAnchor = false) →
    (∀ v, v.node = id → c.uses v = []) → ¬ h.contains id = true

theorem pinnable_of_unpinned (hu : g.Unpinned) (hlive : ∀ id ∈ ids, g.contains id = true) :
    g.Pinnable ids := fun id hid => ⟨hlive id hid, by rw [hu id (hlive id hid)]; decide⟩

theorem visitMatch_eq_ok (hg : g.WellFormed) (hu : g.Unpinned)
    (hlive : ∀ id ∈ m.nodes, g.contains id = true)
    (hp : ∀ plan, p.rewrite (g.pinned m.nodes) m = .ok plan →
      plan.Accepted (g.pinned m.nodes))
    (hfits : p.rewrite (g.pinned m.nodes) m ≠ .error .overflow) :
    ∃ h o, p.visitMatch g root m = (h, .ok o) ∧ h.Unpinned ∧
      (o.changed = false ∧ g.Part h ∨ o.changed = true ∧ ∃ plan c ids,
        p.rewrite (g.pinned m.nodes) m = .ok plan ∧ Replaced g h m plan c ids) := by
  have hpin := pinnable_of_unpinned hu hlive
  have hg₁ : (g.pinned m.nodes).WellFormed := hg.pinned hlive
  have hlive₁ : ∀ id ∈ m.nodes, (g.pinned m.nodes).contains id = true := by
    rwa [contains_pinned]
  rcases commitMatch_of_accepted hp hfits with hcommit | ⟨plan, hplan, hcommit⟩
  · obtain ⟨h, k, e, hpart, hpins, -⟩ := unpinAll_restores hg₁ m.nodup_nodes hpin rfl hlive₁
    refine ⟨h, _, visitMatch_eq hpin hcommit nofun e, fun x hx => ?_,
      .inl ⟨rfl, hpart.wellFormed, fun x hx => ?_, ?_⟩⟩
    · have hc := hpart.contains hx
      rw [contains_pinned] at hc
      rw [hpins, hu x hc]
    · rw [hpart.bare x hx, bare?_pinned]
    · rw [hpart.table, table_pinned]
  · have hacc := hp plan hplan
    have hr := rewired_rewire hg₁ hacc
    have hpart := (releases_apply (g.pinned m.nodes) plan).part hr.wellFormed
    have hpinned (x : NodeId) := pins_pinned (x := x) m.nodup_nodes hpin
    have hkept : ∀ id ∈ m.nodes, ((g.pinned m.nodes).apply plan).1.contains id = true := by
      intro id hid
      refine hg₁.contains_apply hacc (hlive₁ id hid) ?_
      rw [hpinned, if_pos hid]
      exact Nat.succ_ne_zero _
    obtain ⟨h, k, e, hh, hpins, hgone⟩ :=
      unpinAll_restores hpart.wellFormed m.nodup_nodes hpin (hg₁.pins_apply hacc) hkept
    refine ⟨h, _, visitMatch_eq hpin hcommit nofun e, fun x hx => ?_,
      .inr ⟨rfl, plan, _, _, hplan, hr, hpart.trans hh, fun id hid hanchor hunused => ?_⟩⟩
    · rw [hpins]
      rcases hr.contains_iff.mp (hpart.contains (hh.contains hx)) with hnew | hold
      · -- what the commit inserts has no pins
        exact (Nat.add_eq_zero_iff.mp ((hpinned x).symm.trans (hr.unpinned x hnew))).1
      · rw [contains_pinned] at hold
        exact hu x hold
    · have hold := hr.kind?_old (hr.not_mem_of_contains (hlive₁ id hid))
      refine hgone id hid (hu id (hlive id hid)) (fun kind hk => hanchor kind ?_) fun v hv =>
        hpart.uses_eq_nil hr.wellFormed.linked (hunused v hv)
      rwa [hpart.kind? (hkept id hid), hold, kind?_congr bare?_pinned] at hk

end PatternPass

end TensorGraph
