import TensorGraph.Proofs.Pass.Balance

/-! # Declined matches

A pass that declines every match has pinned and unpinned what it matched, and nothing else. A node
that was dead before is released by that, and all others are what they were: the graph stays the
same exactly if no dead node was matched.
-/

namespace TensorGraph

namespace Arena

variable {β : Type} {a b : Arena β} {x : NodeId}

theorem Part.dead (h : a.Part b) (ha : a.Linked) (hpins : b.pins = a.pins) (hd : a.Dead x)
    (hx : b.contains x = true) : b.Dead x where
  kind := by
    rw [h.kind? hx]
    exact hd.kind
  pins := by rw [hpins, hd.pins]
  unused v hv := h.uses_eq_nil ha (hd.unused v hv)

end Arena

namespace PatternPass

open Arena

variable {p : PatternPass} {g h i : Graph} {m : Match}
variable {roots : List NodeId} {ms : List Match} {o : Outcome}

/-- What is left of a graph when these matches are declined. -/
structure Declined (g : Graph) (ms : List Match) (h : Graph) : Prop where
  part : g.Part h
  pins : h.pins = g.pins
  same : (∀ m ∈ ms, ∀ x ∈ m.nodes, ¬ g.Dead x) → h = g
  gone : ∀ m ∈ ms, ∀ x ∈ m.nodes, g.Dead x → ¬ h.contains x = true

theorem Declined.refl (hg : g.WellFormed) : Declined g [] g where
  part := .refl hg
  pins := rfl
  same _ := rfl
  gone _ hm := absurd hm List.not_mem_nil

theorem Declined.cons (hg : g.WellFormed) (hm : Declined g [m] h) (hms : Declined h ms i) :
    Declined g (m :: ms) i where
  part := hm.part.trans hms.part
  pins := hms.pins.trans hm.pins
  same hdead := by
    obtain ⟨hfirst, hrest⟩ := List.forall_mem_cons.mp hdead
    obtain rfl := hm.same (List.forall_mem_singleton.mpr hfirst)
    exact hms.same hrest
  gone := by
    refine List.forall_mem_cons.mpr ⟨fun x hx hd hi => ?_, fun m' hm' x hx hd hi => ?_⟩
    · exact hm.gone m (List.mem_singleton_self m) x hx hd (hms.part.contains hi)
    · -- what was dead at first is dead still, as long as it is there
      have hdead := hm.part.dead hg.linked hm.pins hd (hms.part.contains hi)
      exact hms.gone m' hm' x hx hdead hi

theorem Declined.same_iff (hd : Declined g ms h) :
    h = g ↔ ∀ m ∈ ms, ∀ x ∈ m.nodes, ¬ g.Dead x := by
  refine ⟨?_, hd.same⟩
  rintro rfl m hm x hx hdead
  obtain ⟨kind, hkind, -⟩ := hdead.kind
  exact hd.gone m hm x hx hdead (contains_of_kind? hkind)

/-- A match that is declined adds no more than itself and its releases to the outcome. -/
theorem visitMatch_declined (root : NodeId) (hg : g.WellFormed) (hpin : g.Pinnable m.nodes)
    (hd : p.Declines (g.pinned m.nodes) m) :
    ∃ h k, p.visitMatch g root m = (h, .ok ⟨false, 1, 0, k⟩) ∧ Declined g [m] h := by
  have hcommit : p.commitMatch (g.pinned m.nodes) m = (g.pinned m.nodes, .ok none) := by
    rcases hd with hd | ⟨plan, hplan, hempty⟩
    · simp only [PatternPass.commitMatch, hd]
    · simp only [PatternPass.commitMatch, hplan, hempty, if_true]
  have hlive := hpin.contains
  obtain ⟨h, k, hunpin, hpart, hpins, hgone⟩ := unpinAll_restores (hg.pinned hlive)
    m.nodup_nodes hpin rfl fun id hid => by rw [contains_pinned]; exact hlive id hid
  refine ⟨h, k, visitMatch_eq hpin hcommit ok_ne_error hunpin,
    ⟨⟨hpart.wellFormed, fun x hx => ?_, ?_⟩, hpins, fun hdead => ?_, ?_⟩⟩
  · rw [hpart.bare x hx, bare?_pinned]
  · rw [hpart.table, table_pinned]
  · rw [unpinAll_pinned m.nodup_nodes hpin (List.forall_mem_singleton.mp hdead)] at hunpin
    exact (Prod.mk.inj hunpin).1.symm
  · refine List.forall_mem_singleton.mpr fun x hx hdead =>
      hgone x hx hdead.pins (fun kind hkind => ?_) ?_
    · obtain ⟨kind', hkind', hanchor⟩ := hdead.kind
      rw [kind?, node?_pinned] at hkind
      obtain rfl := Option.some.inj (hkind.symm.trans hkind')
      exact hanchor
    · rw [uses_of_node? node?_pinned]
      exact hdead.unused

theorem visitAll_declined (hg : g.WellFormed)
    (hd : ∀ u ∈ p.visits roots g, p.Declines u.graph u.found)
    (hpin : ∀ u ∈ p.visits roots g, ¬ u.Saturated) :
    ∃ h o', p.visitAll roots g o = (h, .ok o') ∧ o'.changed = o.changed ∧
      o'.rewritten = o.rewritten ∧ Declined g ((p.visits roots g).map Visit.found) h := by
  induction roots generalizing g o with
  | nil => exact ⟨g, o, rfl, rfl, rfl, .refl hg⟩
  | cons root roots ih =>
    cases hm : p.matchAt? g root with
    | none =>
      simp only [visitAll, visits, hm] at hd hpin ⊢
      exact ih hg hd hpin
    | some m =>
      have hmem : ⟨root, m, g⟩ ∈ p.visits (root :: roots) g := by
        simp only [visits, hm]
        exact List.mem_cons_self
      have hsat := Visit.saturated_iff (v := ⟨root, m, g⟩) (contains_of_matchAt? hm)
      have hfirst : g.Pinnable m.nodes := not_not.mp (mt hsat.mpr (hpin _ hmem))
      obtain ⟨h, k, hvisit, hdeclined⟩ := visitMatch_declined root hg hfirst (hd _ hmem)
      simp only [visitAll, visits, hm, hvisit] at hd hpin ⊢
      obtain ⟨i, o', hrun, hchanged, hrewritten, hi⟩ := ih hdeclined.part.wellFormed
        (List.forall_mem_cons.mp hd).2 (List.forall_mem_cons.mp hpin).2
      refine ⟨i, o', hrun, ?_, hrewritten, .cons hg hdeclined hi⟩
      rw [hchanged, Outcome.merge, Bool.or_false]

/-- A run in which every match is declined and can be pinned succeeds without a change to report. It
leaves the graph exactly as it was if and only if none of the nodes it matched was dead; those that
were are gone, and what is left is what it was but for its readers. -/
theorem run_declined (hg : g.WellFormed) (hd : ∀ u ∈ p.trace g, p.Declines u.graph u.found)
    (hpin : ∀ u ∈ p.trace g, ∀ x ∈ u.found.nodes, g.pins x < pinLimit) :
    ∃ h o, p.run g = (h, .ok o) ∧ o.changed = false ∧ o.rewritten = 0 ∧
      (h = g ↔ ∀ u ∈ p.trace g, ∀ x ∈ u.found.nodes, ¬ g.Dead x) ∧
      (∀ u ∈ p.trace g, ∀ x ∈ u.found.nodes, g.Dead x → ¬ h.contains x = true) ∧
      g.Part h ∧ h.pins = g.pins ∧ h.live + o.released = g.live := by
  obtain ⟨order, horder, -⟩ := hg.topologicalOrder_eq
  have hrun : p.run g = p.visitAll order g .none := by simp only [run, horder]
  have htrace : p.trace g = p.visits order g := by simp only [trace, horder]
  have hunsaturated : ∀ u ∈ p.trace g, ¬ u.Saturated := by
    rintro u hu ⟨x, hx, hlimit⟩
    rw [(p.trace_balanced hg).found u hu] at hlimit
    exact (hpin u hu x hx).ne hlimit
  rw [htrace] at hd hunsaturated ⊢
  obtain ⟨h, o, he, hchanged, hrewritten, hdeclined⟩ :=
    visitAll_declined (o := .none) hg hd hunsaturated
  obtain ⟨-, k, hreleased, hquiet⟩ := visitAll_quiet he hchanged
  refine ⟨h, o, hrun.trans he, hchanged, hrewritten, ?_, ?_, hdeclined.part, hdeclined.pins, ?_⟩
  · simpa only [List.forall_mem_map] using hdeclined.same_iff
  · exact List.forall_mem_map.mp hdeclined.gone
  · rw [hreleased, hdeclined.part.wellFormed.live, hg.live, Outcome.none, Nat.zero_add]
    exact hquiet.occupied

open Pipeline (slotOf first reader f32)
open Reshape (eliminateIdentity)

/-- A reshape with an effect, and the uses of its output. -/
def turned (uses : List Use) (rest : List (Slot Body)) (results : List NodeId) : Graph where
  slots := #[
    slotOf (Primitive.parameter (f32 [2, 3])) [] [⟨f32 [2, 3], [reader 1 0]⟩],
    slotOf (Primitive.reshape [3, 2] false) [first 0] [⟨f32 [3, 2], uses⟩]] ++ rest.toArray
  free := []
  parameters := [⟨0, 0⟩]
  results
  live := 2 + rest.length
  version := 0
  table := .standard

def turnedRead : Graph := turned [reader 2 0] [slotOf Primitive.result [first 1] []] [⟨2, 0⟩]

def turnedUnread : Graph := turned [] [] []

def turnedMatch : Match := ⟨first 1, [⟨1, first 1, true⟩, ⟨0, first 0, false⟩]⟩

theorem declines_turned {g : Graph} (htrace : eliminateIdentity.trace g =
      [⟨⟨1, 0⟩, turnedMatch, g⟩])
    (hnone : eliminateIdentity.rewrite (g.pinned turnedMatch.nodes) turnedMatch =
      .error .declined) :
    ∀ u ∈ eliminateIdentity.trace g, eliminateIdentity.Declines u.graph u.found := by
  rw [htrace]
  exact List.forall_mem_singleton.mpr (.inl hnone)

/-- A reshape that is read is declined without a trace. -/
theorem run_declined_turnedRead : ∃ o, eliminateIdentity.run turnedRead = (turnedRead, .ok o) ∧
    o.changed = false := by
  have hg : turnedRead.WellFormed := Arena.wellFormed_of_validate (by cbv) (by decide) (by decide)
    (by decide) (fun _ h => absurd h List.not_mem_nil) (by cbv)
  have htrace : eliminateIdentity.trace turnedRead =
      [⟨⟨1, 0⟩, turnedMatch, turnedRead⟩] := by cbv
  obtain ⟨h, o, hrun, hchanged, -, hsame, -⟩ :=
    run_declined hg (declines_turned htrace (by rfl)) (by
      rw [htrace]
      exact List.forall_mem_singleton.mpr (List.forall_mem_singleton.mpr (by decide)))
  obtain rfl := hsame.mpr (by
    rw [htrace]
    refine List.forall_mem_singleton.mpr fun x hx hdead => ?_
    obtain rfl := List.mem_singleton.mp hx
    exact List.cons_ne_nil _ _ (hdead.unused (first 1) rfl))
  exact ⟨o, hrun, hchanged⟩

/-- One that nothing reads is released when it is declined, and nothing is reported as changed. -/
theorem released_turnedUnread : turnedUnread.WellFormed ∧
    (∀ u ∈ eliminateIdentity.trace turnedUnread, eliminateIdentity.Declines u.graph u.found) ∧
    ∃ h, eliminateIdentity.run turnedUnread = (h, .ok ⟨false, 1, 0, 1⟩) ∧
      turnedUnread.contains ⟨1, 0⟩ = true ∧ h.contains ⟨1, 0⟩ = false ∧
      turnedUnread.version = 0 ∧ h.version = 1 := by
  have hg : turnedUnread.WellFormed := Arena.wellFormed_of_validate (by cbv) (by decide)
    (by decide) (by decide) (fun _ h => absurd h List.not_mem_nil) (by cbv)
  have htrace : eliminateIdentity.trace turnedUnread =
      [⟨⟨1, 0⟩, turnedMatch, turnedUnread⟩] := by cbv
  refine ⟨hg, declines_turned htrace (by rfl), (eliminateIdentity.run turnedUnread).1, ?_, ?_, ?_,
    ?_, ?_⟩
  · exact Prod.ext rfl (by cbv)
  all_goals cbv

end PatternPass

end TensorGraph
