import TensorGraph.Proofs.Pass.Measure

/-! # Progress

What a rewrite leaves of a graph: the root is gone, staged nodes read what lies above, and all
others read what they read before or what stands in for the root. The measure goes down if what is
staged weighs less than the root, or if a single change of layout takes the place of two.
-/

namespace TensorGraph

open Relation Arena

variable {c : Site} {p : Plan Body} {g h : Graph} {ids : List NodeId} {x y : NodeId} {u : Use}
variable {v : Value}

def Plan.Covers (c : Site) (p : Plan Body) : Prop := ∀ port,
  c.graph.uses (c.root.output port) ≠ [] → ∃ r ∈ p.replacements, r.1 = c.root.output port

namespace Plan.Draft

theorem resolve_node (hr : c.graph.Rewired g p ids) {z : Operand} {s : Spec}
    (hz : z.Above c) (hs : p.spec? c.graph z = some s) :
    (z.resolve ids).node ∈ ids ∨ TransGen c.graph.Reads c.via (z.resolve ids).node := by
  cases z with
  | graph w => exact .inr hz
  | staged index port =>
    obtain ⟨n, hn, -⟩ := Option.bind_eq_some_iff.mp hs
    have hlt : index < ids.length := hr.length ▸ (List.getElem?_eq_some_iff.mp hn).1
    rw [resolve_staged (List.getElem?_eq_getElem hlt)]
    exact .inl (List.getElem_mem hlt)

/-- What the inputs read before anything is released: staged nodes read each other and what lies
above, all others read what they read before or what takes the place of the root. -/
theorem producer?_cases (hp : p.Draft c) (hr : c.graph.Rewired g p ids)
    (hu : g.producer? u = some v) :
    (u.node ∈ ids ∧ (v.node ∈ ids ∨ TransGen c.graph.Reads c.via v.node)) ∨
    (u.node ∉ ids ∧ c.graph.producer? u = some v ∧ ∀ r ∈ p.replacements, r.1 ≠ v) ∨
    (u.node ∉ ids ∧ c.graph.Reads u.node c.root ∧
      (v.node ∈ ids ∨ TransGen c.graph.Reads c.via v.node)) := by
  by_cases hx : u.node ∈ ids
  · refine .inl ⟨hx, ?_⟩
    obtain ⟨i, n, name, hn, -, hnew⟩ := hr.exists_staged hx
    rw [producer?_eq_bare, hnew, Option.bind_some] at hu
    obtain ⟨z, hz, rfl⟩ := List.mem_map.mp (List.mem_of_getElem? hu)
    obtain ⟨-, habove⟩ := hp.operands i n hn z hz
    obtain ⟨t, ht⟩ :=
      (hp.typed n (List.mem_of_getElem? hn)).exists_type (List.mem_map_of_mem hz)
    obtain ⟨s, hs, -⟩ := Option.map_eq_some_iff.mp ht
    exact resolve_node hr habove hs
  · rw [hr.producer?_old hx] at hu
    obtain ⟨w, hw, rfl⟩ := Option.map_eq_some_iff.mp hu
    rcases redirectAll_cases (p.targets ids) w with ⟨he, hne⟩ | ⟨⟨old, hold, he⟩, new, hnew, he'⟩
    · refine .inr (.inl ⟨hx, ?_, fun r hr' => ?_⟩)
      · rw [hw, Plan.redirect, he]
      · rw [Plan.redirect, he]
        exact hne _ (List.mem_map_of_mem hr')
    · obtain ⟨r, hr', rfl⟩ := List.mem_map.mp hold
      obtain ⟨t, ht, rfl⟩ := List.mem_map.mp hnew
      refine .inr (.inr ⟨hx, ?_, ?_⟩)
      · have hreads := reads_of_producer? hw
        rwa [← he, (hp.replacements r hr').1] at hreads
      · obtain ⟨-, habove, _, -, htype⟩ := hp.replacements t ht
        obtain ⟨s, hs, -⟩ := Option.map_eq_some_iff.mp htype
        rw [Plan.redirect, he']
        exact resolve_node hr habove hs

theorem uses_root (hp : p.Draft c) (hcov : p.Covers c) (hg : c.graph.WellFormed)
    (hroot : c.graph.contains c.root = true) (hr : c.graph.Rewired g p ids)
    (hv : v.node = c.root) : g.uses v = [] := by
  refine List.eq_nil_iff_forall_not_mem.mpr fun u hu => ?_
  have habove : ¬ (v.node ∈ ids ∨ TransGen c.graph.Reads c.via v.node) := by
    rw [hv]
    rintro (hm | hm)
    · exact hr.fresh _ hm hroot
    · exact hg.acyclic c.root (TransGen.trans_right c.reaches hm)
  rcases hp.producer?_cases hr (hr.wellFormed.linked.mem_uses_iff.mp hu) with
    ⟨-, h⟩ | ⟨-, hw, hne⟩ | ⟨-, -, h⟩
  · exact habove h
  · obtain ⟨root, port⟩ := v
    obtain rfl : root = c.root := hv
    obtain ⟨r, hr', he⟩ := hcov port (List.ne_nil_of_mem (hg.linked.mem_uses_iff.mpr hw))
    exact hne r hr' he
  · exact habove h

end Plan.Draft

/-! ### After the rewrite -/

/-- What a rewrite at a site has made of the graph. -/
structure Site.Rewritten (c : Site) (ids : List NodeId) (h : Graph) : Prop where
  wellFormed : h.WellFormed
  gone : ¬ h.contains c.root = true
  kindOld : ∀ x ∉ ids, ∀ k, h.kind? x = some k → c.graph.kind? x = some k
  kindNew : ∀ x ∈ ids, ∀ k, h.kind? x = some k → c.kinds k
  readsOld : ∀ x ∉ ids, ∀ y, h.Reads x y →
    ReflTransGen c.graph.Reads x (if y ∈ ids then c.root else y)
  readsNew : ∀ x ∈ ids, ∀ y, h.Reads x y → y ∈ ids ∨ TransGen c.graph.Reads c.via y

theorem Plan.Draft.rewritten (hp : p.Draft c) (hg : c.graph.WellFormed)
    (hr : c.graph.Rewired g p ids) (hh : g.Part h) (hgone : ¬ h.contains c.root = true) :
    c.Rewritten ids h where
  wellFormed := hh.wellFormed
  gone := hgone
  kindOld x hx k hk := (hr.kind?_old hx).symm.trans (hh.kind?_eq_some hk)
  kindNew x hx k hk := by
    obtain ⟨i, n, name, hn, -, hnew⟩ := hr.exists_staged hx
    have hk := hh.kind?_eq_some hk
    rw [kind?_eq_bare, hnew] at hk
    obtain rfl := Option.some.inj hk
    exact hp.kinds n (List.mem_of_getElem? hn)
  readsOld x hx y hxy := by
    obtain ⟨u, v, hu, rfl, rfl⟩ := mem_producers_iff.mp hxy
    have hlive := hh.wellFormed.linked.contains_of_reads hxy
    have hstep {z : NodeId} (hz : z ∈ ids ∨ TransGen c.graph.Reads c.via z) :
        ReflTransGen c.graph.Reads c.root (if z ∈ ids then c.root else z) := by
      split
      · exact .refl
      · rename_i hnot
        exact (TransGen.trans_right c.reaches (hz.resolve_left hnot)).to_reflTransGen
    rcases hp.producer?_cases hr (hh.producer? hu) with ⟨hx', -⟩ | ⟨-, hw, -⟩ | ⟨-, hroot, hv⟩
    · exact absurd hx' hx
    · have hreads := reads_of_producer? hw
      rw [if_neg (hr.not_mem_of_contains (hg.linked.contains_of_reads hreads))]
      exact .single hreads
    · exact .head hroot (hstep hv)
  readsNew x hx y hxy := by
    obtain ⟨u, v, hu, rfl, rfl⟩ := mem_producers_iff.mp hxy
    rcases hp.producer?_cases hr (hh.producer? hu) with ⟨-, hv⟩ | ⟨hx', -⟩ | ⟨hx', -⟩
    · exact hv
    · exact absurd hx hx'
    · exact absurd hx hx'

namespace Site.Rewritten

variable {w : Nat} {k : Kind}

theorem ofWeight_subset (hh : c.Rewritten ids h) (hk : ∀ k, c.kinds k → k.weight ≠ w) :
    h.ofWeight w ⊆ (c.graph.ofWeight w).erase c.root := by
  intro x hx
  obtain ⟨k, hkx, hw⟩ := mem_ofWeight.mp hx
  have hnot : x ∉ ids := fun hm => hk k (hh.kindNew x hm k hkx) hw
  refine Finset.mem_erase.mpr ⟨?_, mem_ofWeight.mpr ⟨k, hh.kindOld x hnot k hkx, hw⟩⟩
  rintro rfl
  exact hh.gone (contains_of_kind? hkx)

theorem card_ofWeight_le (hh : c.Rewritten ids h) (hk : ∀ k, c.kinds k → k.weight ≠ w) :
    (h.ofWeight w).card ≤ (c.graph.ofWeight w).card :=
  (Finset.card_le_card (hh.ofWeight_subset hk)).trans (Finset.card_erase_le)

theorem card_ofWeight_lt (hh : c.Rewritten ids h) (hk : ∀ k, c.kinds k → k.weight ≠ w)
    (hroot : c.graph.kind? c.root = some k) (hw : k.weight = w) :
    (h.ofWeight w).card < (c.graph.ofWeight w).card := by
  refine (Finset.card_le_card (hh.ofWeight_subset hk)).trans_lt ?_
  exact Finset.card_erase_lt_of_mem (mem_ofWeight.mpr ⟨k, hroot, hw⟩)

/-- Where all that is staged weighs less than the root, the measure goes down. -/
theorem measure_lt (hh : c.Rewritten ids h) (hroot : c.graph.kind? c.root = some k)
    (hpos : 0 < k.weight) (hk : ∀ l, c.kinds l → l.weight < k.weight) :
    h.measure < c.graph.measure := by
  have hle (w : Nat) (hw : k.weight ≤ w) : (h.ofWeight w).card ≤ (c.graph.ofWeight w).card :=
    hh.card_ofWeight_le fun l hl => ((hk l hl).trans_le hw).ne
  have hlt (w : Nat) (hw : k.weight = w) : (h.ofWeight w).card < (c.graph.ofWeight w).card :=
    hh.card_ofWeight_lt (fun l hl => ((hk l hl).trans_le hw.le).ne) hroot hw
  have hweight : k.weight = 1 ∨ k.weight = 2 ∨ k.weight = 3 := by
    cases k <;> simp_all [Kind.weight]
  rcases hweight with hw | hw | hw
  · refine lex_lt (hle 3 (by omega)) (lex_lt (hle 2 (by omega)) ?_)
    exact Prod.Lex.toLex_lt_toLex.mpr (.inl (hlt 1 hw))
  · exact lex_lt (hle 3 (by omega)) (Prod.Lex.toLex_lt_toLex.mpr (.inl (hlt 2 hw)))
  · exact Prod.Lex.toLex_lt_toLex.mpr (.inl (hlt 3 hw))

/-! ### Changes of layout that become one -/

/-- The node for which a node stands. -/
def image (c : Site) (ids : List NodeId) (x : NodeId) : NodeId := if x ∈ ids then c.root else x

theorem reaches_image (hh : c.Rewritten ids h) (hxy : ReflTransGen h.Reads x y) :
    ReflTransGen c.graph.Reads (image c ids x) (image c ids y) := by
  induction hxy with
  | refl => exact .refl
  | @tail y z _ hyz ih =>
    refine ih.trans ?_
    by_cases hy : y ∈ ids
    · rw [image, if_pos hy, image]
      rcases hh.readsNew y hy z hyz with hz | hz
      · rw [if_pos hz]
      · split
        · exact .refl
        · exact (TransGen.trans_right c.reaches hz).to_reflTransGen
    · rw [image, if_neg hy]
      exact hh.readsOld y hy z hyz

theorem ne_root (hh : c.Rewritten ids h) (hx : h.contains x = true) : x ≠ c.root := by
  rintro rfl
  exact hh.gone hx

theorem eq_of_mem (hlen : ids.length ≤ 1) (hx : x ∈ ids) (hy : y ∈ ids) : x = y := by
  cases ids with
  | nil => exact absurd hx List.not_mem_nil
  | cons id ids =>
    obtain rfl := List.length_eq_zero_iff.mp (Nat.le_zero.mp (Nat.le_of_succ_le_succ hlen))
    rw [List.mem_singleton] at hx hy
    rw [hx, hy]

theorem image_injOn (hh : c.Rewritten ids h) (hlen : ids.length ≤ 1) :
    Set.InjOn (image c ids) {x | h.contains x = true} := by
  intro x hx y hy he
  unfold image at he
  split at he <;> split at he
  · rename_i hx' hy'
    exact eq_of_mem hlen hx' hy'
  · exact absurd he.symm (hh.ne_root hy)
  · exact absurd he (hh.ne_root hx)
  · exact he

/-- A staged node no longer depends on the node above which all is read. -/
theorem not_reaches_via (hh : c.Rewritten ids h) (hg : c.graph.WellFormed)
    (hlen : ids.length ≤ 1) (hvia : c.via ∉ ids) (hx : x ∈ ids) :
    ¬ ReflTransGen h.Reads x c.via := by
  intro hr
  rcases ReflTransGen.cases_head hr with he | ⟨y, hxy, hy⟩
  · exact hvia (he ▸ hx)
  · rcases hh.readsNew x hx y hxy with hm | habove
    · obtain rfl := eq_of_mem hlen hx hm
      exact hh.wellFormed.acyclic x (.single hxy)
    · by_cases hm : y ∈ ids
      · obtain rfl := eq_of_mem hlen hx hm
        exact hh.wellFormed.acyclic x (.single hxy)
      · have hback := hh.reaches_image hy
        rw [image, if_neg hm, image, if_neg hvia] at hback
        exact hg.acyclic c.via (habove.trans_left hback)

theorem card_spans_lt (hh : c.Rewritten ids h) (hg : c.graph.WellFormed) (hlen : ids.length ≤ 1)
    (hvia : TransGen c.graph.Reads c.root c.via) (hnot : c.via ∉ ids)
    (hroot : c.graph.kind? c.root = some k) (hlayout : k.isLayout = true) :
    h.spans.card < c.graph.spans.card := by
  have hmem : (c.root, c.via) ∈ c.graph.spans :=
    (mem_spans hg.linked).mpr ⟨⟨k, hroot, hlayout⟩, hvia.to_reflTransGen⟩
  refine (Finset.card_le_card_of_injOn (Prod.map (image c ids) (image c ids))
    (fun s hs => ?_) (fun s hs t ht he => ?_)).trans_lt (Finset.card_erase_lt_of_mem hmem)
  · obtain ⟨⟨l, hl, hll⟩, hr⟩ := (mem_spans hh.wellFormed.linked).mp hs
    refine Finset.mem_erase.mpr ⟨fun he => ?_, (mem_spans hg.linked).mpr ⟨?_, hh.reaches_image hr⟩⟩
    · obtain ⟨h₁, h₂⟩ := Prod.mk.inj he
      have hs₁ : s.1 ∈ ids := by
        by_contra hm
        rw [image, if_neg hm] at h₁
        exact hh.ne_root (contains_of_kind? hl) h₁
      have hs₂ : s.2 = c.via := by
        unfold image at h₂
        split at h₂
        · rw [← h₂] at hvia
          exact absurd hvia (hg.acyclic c.root)
        · exact h₂
      exact hh.not_reaches_via hg hlen hnot hs₁ (hs₂ ▸ hr)
    · by_cases hm : s.1 ∈ ids
      · exact ⟨k, by rw [Prod.map_fst, image, if_pos hm, hroot], hlayout⟩
      · exact ⟨l, by rw [Prod.map_fst, image, if_neg hm, hh.kindOld _ hm l hl], hll⟩
  · obtain ⟨⟨l, hl, -⟩, hr⟩ := (mem_spans hh.wellFormed.linked).mp hs
    obtain ⟨⟨l', hl', -⟩, hr'⟩ := (mem_spans hh.wellFormed.linked).mp ht
    have hinj := hh.image_injOn hlen
    obtain ⟨h₁, h₂⟩ := Prod.mk.inj he
    have hs := contains_of_kind? hl
    have ht := contains_of_kind? hl'
    exact Prod.ext (hinj hs ht h₁) (hinj (contains_of_reflTransGen hh.wellFormed.linked hs hr)
      (contains_of_reflTransGen hh.wellFormed.linked ht hr') h₂)

theorem measure_lt_of_layout (hh : c.Rewritten ids h) (hg : c.graph.WellFormed)
    (hlen : ids.length ≤ 1) (hvia : TransGen c.graph.Reads c.root c.via) (hnot : c.via ∉ ids)
    (hroot : c.graph.kind? c.root = some k) (hlayout : k.isLayout = true)
    (hk : ∀ l, c.kinds l → l.isLayout = true) : h.measure < c.graph.measure := by
  have hle (w : Nat) (hw : 1 ≠ w) : (h.ofWeight w).card ≤ (c.graph.ofWeight w).card :=
    hh.card_ofWeight_le fun l hl => Kind.weight_of_isLayout (hk l hl) ▸ hw
  have hone : (h.ofWeight 1).card ≤ (c.graph.ofWeight 1).card := by
    have hmem := mem_ofWeight.mpr ⟨k, hroot, Kind.weight_of_isLayout hlayout⟩
    have hsub : h.ofWeight 1 ⊆ (c.graph.ofWeight 1).erase c.root ∪ ids.toFinset := by
      intro x hx
      obtain ⟨l, hl, hw⟩ := mem_ofWeight.mp hx
      by_cases hm : x ∈ ids
      · exact Finset.mem_union_right _ (List.mem_toFinset.mpr hm)
      · refine Finset.mem_union_left _ (Finset.mem_erase.mpr ⟨?_, ?_⟩)
        · exact hh.ne_root (contains_of_kind? hl)
        · exact mem_ofWeight.mpr ⟨l, hh.kindOld x hm l hl, hw⟩
    have hcard := (Finset.card_le_card hsub).trans (Finset.card_union_le _ _)
    have := Finset.card_erase_add_one hmem
    have := ids.toFinset_card_le
    omega
  refine lex_lt (hle 3 (by omega)) (lex_lt (hle 2 (by omega)) (lex_lt hone ?_))
  exact hh.card_spans_lt hg hlen hvia hnot hroot hlayout

end Site.Rewritten

end TensorGraph
