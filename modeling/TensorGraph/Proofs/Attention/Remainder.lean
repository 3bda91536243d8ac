import TensorGraph.Proofs.Arena.Retention
import TensorGraph.Proofs.Attention.Collapse

/-! # What a fusion leaves

The subgraph that takes the place of an island reads what entered it and is read in the place of
what left it. Releases stay inside the island: besides its nodes they take only constants that
nothing outside reads. So an island that shares no node with the fused one is still there.
-/

namespace TensorGraph

namespace Arena

variable {β : Type} {a : Arena β} {p : Plan β} {x : NodeId}

theorem Linked.reads_iff (h : a.Linked) {y : NodeId} :
    a.Reads x y ↔ ∃ v u, u ∈ a.uses v ∧ u.node = x ∧ v.node = y := by
  rw [Reads, mem_producers_iff]
  simp only [h.mem_uses_iff]
  exact exists_comm

/-- A node that was there before and after a commit is of the same kind. -/
theorem kind?_apply (ha : a.WellFormed) (hp : p.Accepted a) (hx : a.contains x = true)
    (hx' : (a.apply p).1.contains x = true) : (a.apply p).1.kind? x = a.kind? x := by
  have hr := rewired_rewire ha hp
  rw [kind?_eq_bare, (remains_apply ha hp).bare x hx', ← kind?_eq_bare,
    hr.kind?_old (hr.not_mem_of_contains hx)]

theorem spec?_apply {g : Graph} {p : Plan Body} {v : Value} (hg : g.WellFormed)
    (hp : p.Accepted g) (hv : g.contains v.node = true)
    (hv' : (g.apply p).1.contains v.node = true) : (g.apply p).1.spec? v = g.spec? v :=
  (spec?_of_part (remains_apply hg hp).bare hv').trans ((rewired_rewire hg hp).spec?_old hv)

theorem reads_apply_iff (ha : a.WellFormed) (hp : p.Accepted a) {y : NodeId}
    (hx : (a.apply p).1.contains x = true) :
    (a.apply p).1.Reads x y ↔ (a.rewire p).1.Reads x y := by
  rw [Reads, Reads, producers_eq_bare, producers_eq_bare, (remains_apply ha hp).bare x hx]

end Arena

namespace Attention.Island

variable {g : Graph} {i j : Island} {b : Boundary} {p : Plan Body} {n : StagedNode Body}
variable {v : Value} {s x y : NodeId}

/-- A fusion: the plan for an island that fits is accepted by a graph of which every recorded spec
is the one that inference gives. -/
structure Fusion (i : Island) (g : Graph) (b : Boundary) (n : StagedNode Body) (p : Plan Body) :
    Prop extends i.Collapse g b n p where
  wellFormed : g.WellFormed
  standard : g.table = .standard
  consistent : g.Inferred
  fits : i.Fits g
  nodes : i.nodes ≠ []
  boundary : i.boundary g = .ok b
  accepted : p.Accepted g

/-- The nodes of the island and the constants that nothing else reads. -/
def Own (i : Island) (g : Graph) (x : NodeId) : Prop :=
  x ∈ i.nodes ∨ x ∈ i.constants ∧ ∀ y, g.Reads y x → y ∈ i.nodes

namespace Fusion

variable (hf : i.Fusion g b n p)
include hf

theorem exists_handle : ∃ s, (g.rewire p).2 = [s] := by
  have hlen := (Arena.rewired_rewire hf.wellFormed hf.accepted).length
  rw [hf.staged] at hlen
  exact List.length_eq_one_iff.mp hlen

/-! ### What is read -/

theorem redirect_of_not_mem (hv : v ∉ b.outputs) (ids : List NodeId) : p.redirect ids v = v := by
  rcases Arena.redirectAll_cases (p.targets ids) v with ⟨he, -⟩ | ⟨⟨r, hr, rfl⟩, -⟩
  · exact he
  · obtain ⟨t, ht, rfl⟩ := List.mem_map.mp hr
    obtain ⟨port, ho, -⟩ := hf.swap.mem_replacements_iff.mp ht
    exact absurd (List.mem_of_getElem? ho) hv

theorem not_own (hx : x ∉ i.nodes) (hr : g.Reads x y) : ¬ i.Own g x := by
  rintro (hmem | ⟨hmem, -⟩)
  · exact hx hmem
  · exact hf.fits.not_reads_of_constant hf.standard hf.consistent hmem y hr

section Handle

variable (hs : (g.rewire p).2 = [s])
include hs

theorem rewired : g.Rewired (g.rewire p).1 p [s] := by
  have hr := Arena.rewired_rewire hf.wellFormed hf.accepted
  rwa [hs] at hr

theorem fresh : ¬ g.contains s = true := (hf.rewired hs).fresh s List.mem_cons_self

theorem redirect_eq_output (hv : v ∈ b.outputs) :
    ∃ port, b.outputs[port]? = some v ∧ p.redirect [s] v = s.output port := by
  obtain ⟨port, hport⟩ := List.mem_iff_getElem?.mp hv
  have hmem : (v, .staged 0 port) ∈ p.replacements :=
    hf.swap.mem_replacements_iff.mpr ⟨port, hport, rfl⟩
  have htarget (t : Value × Value) (ht : t ∈ p.targets [s]) :
      ∃ k, b.outputs[k]? = some t.1 ∧ t.2 = s.output k := by
    obtain ⟨r, hr, rfl⟩ := List.mem_map.mp ht
    obtain ⟨k, hk, he⟩ := hf.swap.mem_replacements_iff.mp hr
    exact ⟨k, hk, by rw [he]; rfl⟩
  have hne : ∀ r ∈ p.targets [s], ∀ t ∈ p.targets [s], r.2 ≠ t.1 := by
    intro r hr t ht he
    obtain ⟨k, -, hk⟩ := htarget r hr
    obtain ⟨l, hl, -⟩ := htarget t ht
    have hlive := hasOutput_of_mem_outputs hf.boundary (List.mem_of_getElem? hl)
    rw [← he, hk] at hlive
    exact hf.fresh hs (Arena.contains_of_hasOutput hlive)
  obtain ⟨t, ht, rfl, he⟩ := Arena.exists_redirectAll hne ⟨_, List.mem_map_of_mem hmem, rfl⟩
  obtain ⟨k, hk, hout⟩ := htarget t ht
  exact ⟨k, hk, he.trans hout⟩

theorem redirect_of_mem (hv : v ∈ b.outputs) : (p.redirect [s] v).node = s := by
  obtain ⟨port, -, he⟩ := hf.redirect_eq_output hs hv
  rw [he]
  rfl

theorem not_own_handle : ¬ i.Own g s := by
  rintro (hmem | ⟨hmem, -⟩)
  · exact hf.fresh hs (hf.fits.contains (List.mem_append_left _ hmem))
  · exact hf.fresh hs (hf.fits.contains (List.mem_append_right _ hmem))

theorem bare?_handle : ∃ m, (g.rewire p).1.bare? s = some m ∧ m.op.kind = .subgraph ∧
    m.inputs = b.inputs := by
  have hn : p.staged[0]? = some n := by rw [hf.staged]; rfl
  obtain ⟨name, hnew⟩ := (hf.rewired hs).new 0 n s hn rfl
  refine ⟨_, hnew, hf.kind, ?_⟩
  rw [hf.inputs, List.map_map]
  exact List.map_id' _

theorem reads_handle_iff : (g.rewire p).1.Reads s y ↔ ∃ v ∈ b.inputs, v.node = y := by
  obtain ⟨m, hm, -, hin⟩ := hf.bare?_handle hs
  rw [Arena.Reads, Arena.producers_eq_bare, hm]
  simp [hin]

theorem reads_iff (hx : x ≠ s) : (g.rewire p).1.Reads x y ↔
    ∃ v u, u ∈ g.uses v ∧ u.node = x ∧ (p.redirect [s] v).node = y := by
  have hr := hf.rewired hs
  simp only [hf.wellFormed.linked.mem_uses_iff]
  rw [Arena.Reads, Arena.mem_producers_iff]
  constructor
  · rintro ⟨u, w, hu, rfl, rfl⟩
    rw [hr.producer?_old (mt List.mem_singleton.mp hx)] at hu
    obtain ⟨v, hv, rfl⟩ := Option.map_eq_some_iff.mp hu
    exact ⟨v, u, hv, rfl, rfl⟩
  · rintro ⟨v, u, hu, rfl, rfl⟩
    refine ⟨u, p.redirect [s] v, ?_, rfl, rfl⟩
    rw [hr.producer?_old (mt List.mem_singleton.mp hx), hu]
    rfl

/-- A node reads the subgraph or one that it read before, and no value that left the island. -/
theorem reads_cases (hx : x ≠ s) (hr : (g.rewire p).1.Reads x y) : y = s ∨
    ∃ v u, u ∈ g.uses v ∧ u.node = x ∧ v.node = y ∧ v ∉ b.outputs := by
  obtain ⟨v, u, hu, hnode, rfl⟩ := (hf.reads_iff hs hx).mp hr
  by_cases hv : v ∈ b.outputs
  · exact .inl (hf.redirect_of_mem hs hv)
  · right
    rw [hf.redirect_of_not_mem hv]
    exact ⟨v, u, hu, hnode, rfl, hv⟩

theorem reads_of_reads (hr : g.Reads x y) (hy : y ∉ i.nodes) : (g.rewire p).1.Reads x y := by
  have hx : x ≠ s := by
    rintro rfl
    exact hf.fresh hs (Arena.contains_of_reads_left hr)
  obtain ⟨v, u, hu, hnode, rfl⟩ := hf.wellFormed.linked.reads_iff.mp hr
  have hv : v ∉ b.outputs := fun hv => hy ((mem_outputs_iff hf.boundary).mp hv).1
  apply (hf.reads_iff hs hx).mpr
  exact ⟨v, u, hu, hnode, by rw [hf.redirect_of_not_mem hv]⟩

theorem exists_reads_handle (ho : b.outputs ≠ []) :
    ∃ y m, y ∉ i.nodes ∧ g.Reads y m ∧ (g.rewire p).1.Reads y s := by
  obtain ⟨v, hv⟩ := List.exists_mem_of_ne_nil _ ho
  obtain ⟨-, u, hu, hout⟩ := (mem_outputs_iff hf.boundary).mp hv
  have hread := hf.wellFormed.linked.reads_iff.mpr ⟨v, u, hu, rfl, rfl⟩
  have hne : u.node ≠ s := by
    intro he
    exact hf.fresh hs (he ▸ Arena.contains_of_reads_left hread)
  exact ⟨u.node, v.node, hout, hread,
    (hf.reads_iff hs hne).mpr ⟨v, u, hu, rfl, hf.redirect_of_mem hs hv⟩⟩

/-! ### What is released -/

theorem heldBeyond_handle (ho : b.outputs ≠ []) : (g.rewire p).1.HeldBeyond (i.Own g) s := by
  obtain ⟨y, m, hout, hread, hreads⟩ := hf.exists_reads_handle hs ho
  exact ⟨y, hf.not_own hout hread, hreads⟩

/-- What the island reads is its own or is held outside, by the subgraph if by nothing else. -/
theorem confined (ho : b.outputs ≠ []) : (g.rewire p).1.Confined (i.Own g)
    (p.replacements.map (·.1.node) ++ [s]) := by
  have hsub := hf.not_own_handle hs
  constructor
  · intro x hx
    rcases List.mem_append.mp hx with hx | hx
    · obtain ⟨t, ht, rfl⟩ := List.mem_map.mp hx
      obtain ⟨port, hv, -⟩ := hf.swap.mem_replacements_iff.mp ht
      exact .inl (.inl ((mem_outputs_iff hf.boundary).mp (List.mem_of_getElem? hv)).1)
    · obtain rfl := List.mem_singleton.mp hx
      exact .inr (hf.heldBeyond_handle hs ho)
  · intro y z hy hr
    have hne : y ≠ s := fun he => hsub (he ▸ hy)
    rcases hf.reads_cases hs hne hr with rfl | ⟨v, u, hu, rfl, rfl, hv⟩
    · exact .inr (hf.heldBeyond_handle hs ho)
    have hread := hf.wellFormed.linked.reads_iff.mpr ⟨v, u, hu, rfl, rfl⟩
    have hmem : u.node ∈ i.nodes := by
      by_contra hout
      exact hf.not_own hout hread hy
    by_cases hnode : v.node ∈ i.nodes
    · exact .inl (.inl hnode)
    by_cases hconstant : v.node ∈ i.constants
    · by_cases hall : ∀ w, g.Reads w v.node → w ∈ i.nodes
      · exact .inl (.inr ⟨hconstant, hall⟩)
      · push Not at hall
        obtain ⟨w, hw, hout⟩ := hall
        exact .inr ⟨w, hf.not_own hout hw, hf.reads_of_reads hs hw hnode⟩
    · refine .inr ⟨s, hsub, (hf.reads_handle_iff hs).mpr ⟨v, ?_, rfl⟩⟩
      have hproducer := hf.wellFormed.linked.mem_uses_iff.mp hu
      obtain ⟨m, hm, hin⟩ := Arena.producer?_eq_some_iff.mp hproducer
      exact (mem_inputs_iff hf.boundary).mpr
        ⟨⟨u.node, hmem, m, hm, List.mem_of_getElem? hin⟩, hnode, hconstant⟩

/-- If nothing leaves the island, the subgraph alone goes: the island still reads what it reads. -/
theorem confined_handle (ho : b.outputs = []) : (g.rewire p).1.Confined (· = s)
    (p.replacements.map (·.1.node) ++ [s]) := by
  constructor
  · intro x hx
    rw [hf.replacements, ho] at hx
    exact .inl (List.mem_singleton.mp hx)
  · rintro y z rfl hr
    obtain ⟨v, hv, rfl⟩ := (hf.reads_handle_iff hs).mp hr
    obtain ⟨⟨m, hm, k, hk, hin⟩, hout, -⟩ := (mem_inputs_iff hf.boundary).mp hv
    have hread := hf.reads_of_reads hs (Arena.reads_of_input hk hin) hout
    refine .inr ⟨m, ?_, hread⟩
    rintro rfl
    exact hf.fresh hs (Arena.contains_of_node? hk)

theorem contains_of_confined {S : NodeId → Prop}
    (hc : (g.rewire p).1.Confined S (p.replacements.map (·.1.node) ++ [s]))
    (hx : (g.rewire p).1.contains x = true) (hS : ¬ S x) : (g.apply p).1.contains x = true := by
  have hkeep := hc.contains_releaseAll (hf.rewired hs).wellFormed hx hS
  rw [Arena.apply_eq]
  unfold Arena.released
  rw [hs]
  exact hkeep

/-- The subgraph stays if something reads it. -/
theorem contains_handle (ho : b.outputs ≠ []) : (g.apply p).1.contains s = true := by
  have hlive := (hf.rewired hs).contains_iff.mpr (.inl List.mem_cons_self)
  exact hf.contains_of_confined hs (hf.confined hs ho) hlive (hf.not_own_handle hs)

end Handle

/-- A fusion leaves every node that does not belong to the island alone. -/
theorem contains_apply (hx : g.contains x = true) (hown : ¬ i.Own g x) :
    (g.apply p).1.contains x = true := by
  obtain ⟨s, hs⟩ := hf.exists_handle
  have hlive : (g.rewire p).1.contains x = true := (hf.rewired hs).contains_iff.mpr (.inr hx)
  by_cases ho : b.outputs = []
  · apply hf.contains_of_confined hs (hf.confined_handle hs ho) hlive
    rintro rfl
    exact hf.fresh hs hx
  · exact hf.contains_of_confined hs (hf.confined hs ho) hlive hown

/-- Another island that fits and shares no node with the fused one still fits. -/
theorem fits_apply (hj : j.Fits g) (hdisjoint : ∀ x ∈ j.nodes, x ∉ i.nodes) :
    j.Fits (g.apply p).1 := by
  have hg := hf.wellFormed
  have hp := hf.accepted
  obtain ⟨s, hs⟩ := hf.exists_handle
  have hnotConstant (x : NodeId) (hx : x ∈ j.nodes) : x ∉ i.constants :=
    fun hmem => hj.ne_constant hx (hf.fits.constants x hmem).1
  have hnode (x : NodeId) (hx : x ∈ j.nodes) : (g.apply p).1.contains x = true := by
    apply hf.contains_apply (hj.contains (List.mem_append_left _ hx))
    rintro (hmem | ⟨hmem, -⟩)
    · exact hdisjoint x hx hmem
    · exact hnotConstant x hx hmem
  constructor
  · intro x hx
    obtain ⟨k, hk, hmember⟩ := hj.members x hx
    rw [Arena.kind?_apply hg hp (hj.contains (List.mem_append_left _ hx)) (hnode x hx)]
    exact ⟨k, hk, hmember⟩
  · intro x hx
    obtain ⟨hkind, y, hy, hread⟩ := hj.constants x hx
    have hout : x ∉ i.nodes := fun hmem => hf.fits.ne_constant hmem hkind
    have hlive := hj.contains (List.mem_append_right _ hx)
    have hkeep : (g.apply p).1.contains x = true := by
      apply hf.contains_apply hlive
      rintro (hmem | ⟨-, hall⟩)
      · exact hout hmem
      · exact hdisjoint y hy (hall y hread)
    constructor
    · rw [Arena.kind?_apply hg hp hlive hkeep, hkind]
    · have hwired := hf.reads_of_reads hs hread hout
      exact ⟨y, hy, (Arena.reads_apply_iff hg hp (hnode y hy)).mpr hwired⟩
  · apply hj.sorted.imp_of_mem
    intro x y hx hy hxy hread
    have hlive (z : NodeId) (hz : z ∈ j.nodes) : z ≠ s := by
      rintro rfl
      exact hf.fresh hs (hj.contains (List.mem_append_left _ hz))
    have hread := (Arena.reads_apply_iff hg hp (hnode x hx)).mp hread
    rcases hf.reads_cases hs (hlive x hx) hread with he | ⟨v, u, hu, hux, hvy, -⟩
    · exact hlive y hy he
    · exact hxy (hg.linked.reads_iff.mpr ⟨v, u, hu, hux, hvy⟩)

end Fusion

/-! ### An island that fits is fused -/

theorem ne_nil_of_isConvex {r : Ranking} (h : i.isConvex g r = true) : i.nodes ≠ [] := by
  intro he
  simp [isConvex, highest?, he] at h

theorem exists_fusion {r : Ranking} (hg : g.WellFormed) (ht : g.table = .standard)
    (hi : g.Inferred) (h : i.Fits g) (hr : r.Ranks g) (hconvex : i.isConvex g r = true) :
    ∃ b n p, i.replacement g b = .ok p ∧ i.Fusion g b n p := by
  obtain ⟨b, e⟩ := exists_boundary fun x hx => h.contains (List.mem_append_left _ hx)
  have hne := ne_nil_of_isConvex hconvex
  obtain ⟨n, p, hplan, hc⟩ := exists_collapse hg ht hi h hne e
  have hp := hc.accepted hg h (convex_of_isConvex hg.linked hr hconvex) e
  exact ⟨b, n, p, hplan, hc, hg, ht, hi, h, hne, e, hp⟩

end Attention.Island

end TensorGraph
