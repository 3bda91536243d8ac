import TensorGraph.Proofs.Attention.Convexity
import TensorGraph.Proofs.Attention.Island

/-! # Boundaries of islands

What is known of every island that is found: of which kinds its nodes are, that its constants are
read inside, and that no node comes before one that it reads. The boundary of such an island holds
the values that its nodes read from outside and those of its values that are read there.
-/

namespace TensorGraph.Attention

open Relation (ReflTransGen TransGen)

variable {g : Graph} {r : Ranking} {c : Config} {i : Island} {b : Boundary} {v : Value}
variable {x y : NodeId} {n : Node Body}

namespace Island

/-- An island of which all nodes and constants are there, each after those that it reads. -/
structure Fits (i : Island) (g : Graph) : Prop where
  members : ∀ x ∈ i.nodes, ∃ k, g.kind? x = some k ∧ Member k
  constants : ∀ x ∈ i.constants, g.kind? x = some .constant ∧ ∃ y ∈ i.nodes, g.Reads y x
  sorted : i.nodes.Pairwise fun x y => ¬ g.Reads x y

theorem Fits.contains (h : i.Fits g) (hx : x ∈ i.nodes ++ i.constants) : g.contains x = true := by
  have hkind : ∃ k, g.kind? x = some k := by
    rcases List.mem_append.mp hx with hx | hx
    · obtain ⟨k, hk, -⟩ := h.members x hx
      exact ⟨k, hk⟩
    · exact ⟨_, (h.constants x hx).1⟩
  obtain ⟨k, hk⟩ := hkind
  exact Arena.contains_of_kind? hk

theorem Fits.ne_constant (h : i.Fits g) (hx : x ∈ i.nodes) : g.kind? x ≠ some .constant := by
  obtain ⟨k, hk, hmember⟩ := h.members x hx
  rw [hk]
  exact mt Option.some.inj hmember.ne_constant

theorem pairwise_order (hr : r.Ranks g) : r.order.Pairwise fun x y => ¬ g.Reads x y := by
  rw [List.pairwise_iff_getElem]
  intro i j hi hj hlt hread
  have hrank : r.order.idxOf r.order[j] < r.order.idxOf r.order[i] := hr.rankedBy _ _ hread
  rw [hr.nodup.idxOf_getElem, hr.nodup.idxOf_getElem] at hrank
  omega

theorem fits_collect {variant : Variant} {m : Match} (hr : r.Ranks g)
    (hm : ∀ id ∈ m.nodes, ∃ k, g.kind? id = some k ∧ Member k)
    (e : collect c r g variant m = some i) : i.Fits g := by
  constructor
  · intro x hx
    exact member_of_collect hm e hx
  · intro x hx
    exact constant_of_collect e hx
  · obtain ⟨members, -, -, hnodes, -⟩ := collect_eq_some e
    rw [hnodes]
    exact (pairwise_order hr).filter _

end Island

theorem fits_of_mem_discover (hr : r.Ranks g) (hi : i ∈ (discover c r g).1) : i.Fits g := by
  obtain ⟨variant, root, m, -, hmatch, hcollect⟩ := exists_match_of_mem_discover hi
  refine Island.fits_collect hr (fun id hid => ?_) hcollect
  exact Pattern.kind?_of_mem_nodes variant.ensures_motif.2.1 hmatch hid

/-! ### Entering and leaving values -/

namespace Island

theorem boundary_eq_ok_iff : i.boundary g = .ok b ↔ ∃ nodes, i.nodes.map g.node? = nodes.map some ∧
    b = ⟨i.inputs nodes, (i.nodes.zip nodes).flatMap fun (id, n) => i.exports id n⟩ := by
  rw [boundary, bind_eq_ok_iff]
  simp only [mapM_eq_ok_iff fun x (y : Node Body) => @Arena.node_eq_ok_iff Body g x y]
  constructor
  · rintro ⟨nodes, hnodes, e⟩
    exact ⟨nodes, hnodes, (Except.ok.inj e).symm⟩
  · rintro ⟨nodes, hnodes, rfl⟩
    exact ⟨nodes, hnodes, rfl⟩

theorem exists_boundary (h : ∀ x ∈ i.nodes, g.contains x = true) : ∃ b, i.boundary g = .ok b := by
  have hnodes : ∃ nodes : List (Node Body), i.nodes.map g.node? = nodes.map some := by
    generalize i.nodes = ids at h
    induction ids with
    | nil => exact ⟨[], rfl⟩
    | cons x ids ih =>
      obtain ⟨hx, hids⟩ := List.forall_mem_cons.mp h
      obtain ⟨n, hn⟩ := Arena.contains_iff.mp hx
      obtain ⟨nodes, hnodes⟩ := ih hids
      exact ⟨n :: nodes, by rw [List.map_cons, List.map_cons, hn, hnodes]⟩
  obtain ⟨nodes, hnodes⟩ := hnodes
  exact ⟨_, boundary_eq_ok_iff.mpr ⟨nodes, hnodes, rfl⟩⟩

theorem mem_inputs_iff (e : i.boundary g = .ok b) : v ∈ b.inputs ↔
    (∃ x ∈ i.nodes, ∃ n, g.node? x = some n ∧ v ∈ n.inputs) ∧
      v.node ∉ i.nodes ∧ v.node ∉ i.constants := by
  obtain ⟨nodes, hnodes, rfl⟩ := boundary_eq_ok_iff.mp e
  have hmem (n : Node Body) : n ∈ nodes ↔ ∃ x ∈ i.nodes, g.node? x = some n := by
    rw [← List.mem_map, hnodes]
    simp
  simp only [inputs, List.mem_eraseDups, List.mem_filter, List.mem_flatMap, hmem,
    Bool.and_eq_true, Bool.not_eq_true', List.contains_eq_mem, decide_eq_false_iff_not]
  constructor
  · rintro ⟨⟨n, ⟨x, hx, hn⟩, hv⟩, hout⟩
    exact ⟨⟨x, hx, n, hn, hv⟩, hout⟩
  · rintro ⟨⟨x, hx, n, hn, hv⟩, hout⟩
    exact ⟨⟨n, ⟨x, hx, hn⟩, hv⟩, hout⟩

theorem mem_exports_iff (hn : g.node? x = some n) : v ∈ i.exports x n ↔
    v.node = x ∧ ∃ u ∈ g.uses v, u.node ∉ i.nodes := by
  have huses (port : Nat) (o : Output) (ho : n.outputs[port]? = some o) :
      g.uses (x.output port) = o.uses :=
    Arena.uses_of_output? (Arena.output?_eq_some_iff.mpr ⟨n, hn, ho⟩)
  simp only [exports, List.mem_filterMap, Prod.exists, List.mem_zipIdx_iff_getElem?]
  constructor
  · rintro ⟨o, port, ho, he⟩
    split at he
    · rename_i hany
      obtain rfl := Option.some.inj he
      constructor
      · rfl
      · rw [huses port o ho]
        simpa using hany
    · cases he
  · rintro ⟨rfl, u, hu, hout⟩
    obtain ⟨m, hm, hlt⟩ := Arena.hasOutput_iff.mp (Arena.hasOutput_of_mem_uses hu)
    obtain rfl : n = m := Option.some.inj (hn.symm.trans hm)
    have ho := List.getElem?_eq_getElem hlt
    refine ⟨_, v.port, ho, ?_⟩
    have hu' : u ∈ n.outputs[v.port].uses := by rwa [← huses v.port _ ho]
    rw [if_pos]
    · rfl
    · simpa using ⟨u, hu', hout⟩

theorem mem_zip_iff {ids : List NodeId} {nodes : List (Node Body)}
    (h : ids.map g.node? = nodes.map some) :
    (x, n) ∈ ids.zip nodes ↔ x ∈ ids ∧ g.node? x = some n := by
  induction ids generalizing nodes with
  | nil => simp
  | cons y ids ih =>
    cases nodes with
    | nil => cases h
    | cons m nodes =>
      obtain ⟨hy, hrest⟩ := List.cons.inj h
      rw [List.zip_cons_cons, List.mem_cons, List.mem_cons, ih hrest, Prod.mk.injEq]
      constructor
      · rintro (⟨rfl, rfl⟩ | ⟨hx, hn⟩)
        · exact ⟨.inl rfl, hy⟩
        · exact ⟨.inr hx, hn⟩
      · rintro ⟨rfl | hx, hn⟩
        · exact .inl ⟨rfl, Option.some.inj (hn.symm.trans hy)⟩
        · exact .inr ⟨hx, hn⟩

theorem mem_outputs_iff (e : i.boundary g = .ok b) : v ∈ b.outputs ↔
    v.node ∈ i.nodes ∧ ∃ u ∈ g.uses v, u.node ∉ i.nodes := by
  obtain ⟨nodes, hnodes, rfl⟩ := boundary_eq_ok_iff.mp e
  simp only [List.mem_flatMap, Prod.exists, mem_zip_iff hnodes]
  constructor
  · rintro ⟨x, n, ⟨hx, hn⟩, hv⟩
    obtain ⟨rfl, hu⟩ := (mem_exports_iff hn).mp hv
    exact ⟨hx, hu⟩
  · rintro ⟨hx, u, hu, hout⟩
    obtain ⟨n, hn, -⟩ := Arena.hasOutput_iff.mp (Arena.hasOutput_of_mem_uses hu)
    exact ⟨v.node, n, ⟨hx, hn⟩, (mem_exports_iff hn).mpr ⟨rfl, u, hu, hout⟩⟩

theorem hasOutput_of_mem_inputs (hg : g.Linked) (e : i.boundary g = .ok b) (hv : v ∈ b.inputs) :
    g.hasOutput v = true := by
  obtain ⟨⟨x, -, n, hn, hv⟩, -⟩ := (mem_inputs_iff e).mp hv
  exact hg.hasOutput_of_input hn hv

theorem hasOutput_of_mem_outputs (e : i.boundary g = .ok b) (hv : v ∈ b.outputs) :
    g.hasOutput v = true := by
  obtain ⟨-, u, hu, -⟩ := (mem_outputs_iff e).mp hv
  exact Arena.hasOutput_of_mem_uses hu

end Island

end TensorGraph.Attention
