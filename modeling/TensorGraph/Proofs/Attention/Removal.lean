import TensorGraph.Proofs.Attention.Run
import TensorGraph.Proofs.Rewrite.Generations
import TensorGraph.Proofs.Rewrite.Tightness

/-! # Islands that go

A fusion removes the whole island if none of its nodes is dead or pinned. A node of it that stayed
would be read by another one that stayed: what else read it reads the subgraph, and the subgraph
reads nothing of the island. No handle of a fused island comes back later in the run, since the
slots of its nodes are not released a second time. Dead nodes are never removed by a fusion.
-/

namespace TensorGraph

namespace Arena

variable {β : Type} {a : Arena β} {x : NodeId} {k : Kind}

theorem Dead.not_reads (hx : a.Dead x) (ha : a.Linked) (y : NodeId) : ¬ a.Reads y x := by
  intro hread
  obtain ⟨v, u, hu, -, rfl⟩ := ha.reads_iff.mp hread
  exact hx.not_mem_uses hu

def ofKind (a : Arena β) (k : Kind) : Finset NodeId :=
  a.nodeIds.toFinset.filter fun x => a.kind? x = some k

theorem mem_ofKind : x ∈ a.ofKind k ↔ a.kind? x = some k := by
  rw [ofKind, Finset.mem_filter, List.mem_toFinset, mem_nodeIds_iff_contains]
  constructor
  · exact And.right
  · intro hx
    exact ⟨contains_of_kind? hx, hx⟩

end Arena

namespace Attention

variable {g h : Graph} {i j : Island} {fused : List Island} {b : Boundary} {p : Plan Body}
variable {n : StagedNode Body} {x : NodeId} {k : Kind}

namespace Island

def HasProducts (i : Island) (g : Graph) : Prop :=
  ∃ x ∈ i.nodes, ∃ y ∈ i.nodes, x ≠ y ∧ g.kind? x = some .matMul ∧ g.kind? y = some .matMul

structure Alive (i : Island) (g : Graph) : Prop where
  unpinned : ∀ x ∈ i.nodes, g.pins x = 0
  living : ∀ x ∈ i.nodes, ¬ g.Dead x

theorem Alive.exists_use (h : i.Alive g) (hx : x ∈ i.nodes) (hk : g.kind? x = some k)
    (hmember : Member k) : ∃ v u, v.node = x ∧ u ∈ g.uses v := by
  by_contra hnone
  push Not at hnone
  apply h.living x hx
  constructor
  · exact ⟨k, hk, hmember.movable⟩
  · exact h.unpinned x hx
  · intro v hv
    exact List.eq_nil_iff_forall_not_mem.mpr fun u => hnone v u hv

namespace Fusion

theorem not_reads_of_dead (hf : i.Fusion g b n p) (hx : g.Dead x) (y : NodeId) :
    ¬ (g.rewire p).1.Reads y x := by
  obtain ⟨s, hs⟩ := hf.exists_handle
  obtain ⟨k, hk, -⟩ := hx.kind
  intro hread
  by_cases hy : y = s
  · rw [hy, hf.reads_handle_iff hs] at hread
    obtain ⟨v, hv, rfl⟩ := hread
    obtain ⟨⟨z, hz, m, hm, hin⟩, -⟩ := (mem_inputs_iff hf.boundary).mp hv
    exact hx.not_reads hf.wellFormed.linked z (Arena.reads_of_input hm hin)
  · rcases hf.reads_cases hs hy hread with rfl | ⟨v, u, hu, -, rfl, -⟩
    · exact hf.fresh hs (Arena.contains_of_kind? hk)
    · exact hx.not_mem_uses hu

theorem dead_apply_iff (hf : i.Fusion g b n p) : (g.apply p).1.Dead x ↔ g.Dead x := by
  have hg := hf.wellFormed
  have hp := hf.accepted
  constructor
  · exact fun hx => hx.of_apply hg hp
  intro hx
  obtain ⟨s, hs⟩ := hf.exists_handle
  obtain ⟨k, hk, hanchor⟩ := hx.kind
  have hold := Arena.contains_of_kind? hk
  -- releases start at nodes that were read, and nothing reads the dead one
  have hconfined : (g.rewire p).1.Confined (· ≠ x) (p.replacements.map (·.1.node) ++ [s]) := by
    constructor
    · intro y hy
      left
      rintro rfl
      rcases List.mem_append.mp hy with hy | hy
      · obtain ⟨t, ht, rfl⟩ := List.mem_map.mp hy
        obtain ⟨port, hv, -⟩ := hf.swap.mem_replacements_iff.mp ht
        obtain ⟨-, u, hu, -⟩ := (mem_outputs_iff hf.boundary).mp (List.mem_of_getElem? hv)
        exact hx.not_mem_uses hu
      · obtain rfl := List.mem_singleton.mp hy
        exact hf.fresh hs hold
    · intro y z _ hread
      left
      rintro rfl
      exact hf.not_reads_of_dead hx y hread
  have hlive : (g.apply p).1.contains x = true := hf.contains_of_confined hs hconfined
    ((hf.rewired hs).contains_iff.mpr (.inr hold)) (not_not.mpr rfl)
  constructor
  · rw [Arena.kind?_apply hg hp hold hlive]
    exact ⟨k, hk, hanchor⟩
  · rw [hg.pins_apply hp]
    exact hx.pins
  · intro v hv
    apply List.eq_nil_iff_forall_not_mem.mpr
    intro u hu
    have hread := (hg.apply hp).linked.reads_iff.mpr ⟨v, u, hu, rfl, hv⟩
    exact hf.not_reads_of_dead hx _
      ((Arena.reads_apply_iff hg hp (Arena.contains_of_reads_left hread)).mp hread)

theorem alive_apply (hf : i.Fusion g b n p) (h : j.Alive g) : j.Alive (g.apply p).1 := by
  constructor
  · intro x hx
    rw [hf.wellFormed.pins_apply hf.accepted]
    exact h.unpinned x hx
  · intro x hx hdead
    exact h.living x hx (hf.dead_apply_iff.mp hdead)

section Alive

variable (hf : i.Fusion g b n p) (halive : i.Alive g)
include hf halive

theorem outputs_ne_nil : b.outputs ≠ [] := by
  intro ho
  obtain ⟨x, hx⟩ := List.exists_mem_of_ne_nil _ hf.nodes
  refine hf.wellFormed.not_of_read (S := fun x => x ∈ i.nodes) ?_ x hx
  intro x hx
  obtain ⟨k, hk, hmember⟩ := hf.fits.members x hx
  obtain ⟨v, u, rfl, hu⟩ := halive.exists_use hx hk hmember
  refine ⟨u.node, ?_, hf.wellFormed.linked.reads_iff.mpr ⟨v, u, hu, rfl, rfl⟩⟩
  by_contra hout
  have hv := (mem_outputs_iff hf.boundary).mpr ⟨hx, u, hu, hout⟩
  rw [ho] at hv
  exact absurd hv List.not_mem_nil

/-- Nothing of the island is left. -/
theorem not_contains (hx : x ∈ i.nodes) : ¬ (g.apply p).1.contains x = true := by
  have hg := hf.wellFormed
  have hp := hf.accepted
  obtain ⟨s, hs⟩ := hf.exists_handle
  intro hlive
  refine (hg.apply hp).not_of_read
    (S := fun x => x ∈ i.nodes ∧ (g.apply p).1.contains x = true) ?_ x ⟨hx, hlive⟩
  rintro x ⟨hx, hlive⟩
  obtain ⟨k, hk, hmember⟩ := hf.fits.members x hx
  have hold := hf.fits.contains (List.mem_append_left _ hx)
  rw [← Arena.kind?_apply hg hp hold hlive] at hk
  obtain ⟨v, u, rfl, hu⟩ := (hf.alive_apply halive).exists_use hx hk hmember
  have hread := (hg.apply hp).linked.reads_iff.mpr ⟨v, u, hu, rfl, rfl⟩
  have hreader := Arena.contains_of_reads_left hread
  refine ⟨u.node, ⟨?_, hreader⟩, hread⟩
  have hwired := (Arena.reads_apply_iff hg hp hreader).mp hread
  by_cases hne : u.node = s
  · rw [hne, hf.reads_handle_iff hs] at hwired
    obtain ⟨w, hw, he⟩ := hwired
    exact absurd (he ▸ hx) ((mem_inputs_iff hf.boundary).mp hw).2.1
  · rcases hf.reads_cases hs hne hwired with he | ⟨w, u', hu', hnode, he, hw⟩
    · exact absurd hold (he ▸ hf.fresh hs)
    · by_contra hout
      exact hw ((mem_outputs_iff hf.boundary).mpr ⟨he ▸ hx, u', hu', hnode ▸ hout⟩)

/-- With the island its products go, and no node of such a kind is added. -/
theorem card_matMul_le (hproducts : i.HasProducts g) :
    ((g.apply p).1.ofKind .matMul).card + 2 ≤ (g.ofKind .matMul).card := by
  obtain ⟨x, hx, y, hy, hne, hkx, hky⟩ := hproducts
  have hgone (z : NodeId) (hz : z ∈ i.nodes) : z ∉ (g.apply p).1.ofKind .matMul := by
    intro hmem
    exact hf.not_contains halive hz (Arena.contains_of_kind? (Arena.mem_ofKind.mp hmem))
  have hsubset : insert x (insert y ((g.apply p).1.ofKind .matMul)) ⊆ g.ofKind .matMul := by
    intro z hz
    rw [Arena.mem_ofKind]
    rcases Finset.mem_insert.mp hz with rfl | hz
    · exact hkx
    · rcases Finset.mem_insert.mp hz with rfl | hz
      · exact hky
      · exact hf.kind?_of_apply (Arena.mem_ofKind.mp hz) (by decide)
  have hcard := Finset.card_le_card hsubset
  rwa [Finset.card_insert_of_notMem (by simp [hne, hgone x hx]),
    Finset.card_insert_of_notMem (hgone y hy)] at hcard

/-- Slots that belong neither to the island nor to its constants are not released. -/
theorem past_apply (hpast : g.Past x)
    (hindex : ∀ z ∈ i.nodes ++ i.constants, z.index ≠ x.index) : (g.apply p).1.Past x := by
  obtain ⟨s, hs⟩ := hf.exists_handle
  apply hpast.apply hf.wellFormed hf.accepted
  intro y hy hlive
  rcases hlive with hmem | hlive
  · rw [hs] at hmem
    obtain rfl := List.mem_singleton.mp hmem
    exact hf.contains_handle hs (hf.outputs_ne_nil halive)
  · apply hf.contains_apply hlive
    rintro (hmem | ⟨hmem, -⟩)
    · exact hindex y (List.mem_append_left _ hmem) hy
    · exact hindex y (List.mem_append_right _ hmem) hy

end Alive

theorem hasProducts_apply (hf : i.Fusion g b n p) (hj : j.Fits g)
    (hdisjoint : ∀ x ∈ j.nodes, x ∉ i.nodes) (hproducts : j.HasProducts g) :
    j.HasProducts (g.apply p).1 := by
  have hkeep (x : NodeId) (hx : x ∈ j.nodes) : (g.apply p).1.kind? x = g.kind? x :=
    Arena.kind?_apply hf.wellFormed hf.accepted (hj.contains (List.mem_append_left _ hx))
      ((hf.fits_apply hj hdisjoint).contains (List.mem_append_left _ hx))
  obtain ⟨x, hx, y, hy, hne, hkx, hky⟩ := hproducts
  exact ⟨x, hx, y, hy, hne, (hkeep x hx).trans hkx, (hkeep y hy).trans hky⟩

end Fusion

end Island

namespace Fuses

theorem pins_eq (hfuses : Fuses g fused h) : h.pins = g.pins := by
  induction hfuses with
  | done g => rfl
  | fuse first later rest ih => rw [ih, first.wellFormed.pins_apply first.accepted]

theorem dead_iff (hfuses : Fuses g fused h) : h.Dead x ↔ g.Dead x := by
  induction hfuses with
  | done g => rfl
  | fuse first later rest ih => exact ih.trans first.dead_apply_iff

section Alive

variable (hfuses : Fuses g fused h) (halive : ∀ i ∈ fused, i.Alive g)
include hfuses halive

theorem past (hpast : g.Past x)
    (hindex : ∀ j ∈ fused, ∀ z ∈ j.nodes ++ j.constants, z.index ≠ x.index) : h.Past x := by
  induction hfuses with
  | done g => exact hpast
  | fuse first later rest ih =>
    obtain ⟨hfirst, hrest⟩ := List.forall_mem_cons.mp hindex
    obtain ⟨hnow, hlater⟩ := List.forall_mem_cons.mp halive
    exact ih (fun j hj => first.alive_apply (hlater j hj)) (first.past_apply hnow hpast hfirst)
      hrest

/-- Nothing is left of the fused islands. -/
theorem not_contains (hi : i ∈ fused) (hx : x ∈ i.nodes) : ¬ h.contains x = true := by
  induction hfuses with
  | done g => exact absurd hi List.not_mem_nil
  | @fuse g h j fused b n p first later rest ih =>
    obtain ⟨hnow, hlater⟩ := List.forall_mem_cons.mp halive
    have halive' (j : Island) (hj : j ∈ fused) : j.Alive (g.apply p).1 :=
      first.alive_apply (hlater j hj)
    rcases List.mem_cons.mp hi with rfl | hi
    · have hlive := first.fits.contains (List.mem_append_left _ hx)
      have hpast := Arena.past_apply first.wellFormed first.accepted hlive
        (first.not_contains hnow hx)
      apply (rest.past halive' hpast ?_).not_contains
      intro j hj z hz he
      obtain ⟨hfits, hdisjoint⟩ := later j hj
      obtain rfl := Arena.eq_of_contains_index (hfits.contains hz) hlive he
      rcases List.mem_append.mp hz with hz | hz
      · exact hdisjoint z hz hx
      · exact first.fits.ne_constant hx (hfits.constants z hz).1
    · exact ih halive' hi

/-- Every fusion takes two products away. -/
theorem card_matMul_le (hproducts : ∀ i ∈ fused, i.HasProducts g) :
    (h.ofKind .matMul).card + 2 * fused.length ≤ (g.ofKind .matMul).card := by
  induction hfuses with
  | done g => exact le_rfl
  | @fuse g h i fused b n p first later rest ih =>
    obtain ⟨hnow, hlater⟩ := List.forall_mem_cons.mp halive
    obtain ⟨hi, hproducts⟩ := List.forall_mem_cons.mp hproducts
    have hstep := first.card_matMul_le hnow hi
    have hcard := ih (fun j hj => first.alive_apply (hlater j hj)) fun j hj =>
      first.hasProducts_apply (later j hj).1 (later j hj).2 (hproducts j hj)
    rw [List.length_cons]
    omega

end Alive

end Fuses

end Attention

end TensorGraph
