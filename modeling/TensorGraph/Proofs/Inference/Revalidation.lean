import Mathlib.Data.List.Permutation
import TensorGraph.Proofs.Inference.Soundness
import TensorGraph.Proofs.Rewrite.Content

/-! # Renewed inference in one sweep

Specs are overwritten while one node after the other is inferred. In a topological order the specs
of a node are final before they are read: what is inferred later neither is the node nor feeds it.
So a single sweep that succeeds leaves specs that inference confirms, and the next one has nothing
to revise.
-/

namespace TensorGraph

namespace Arena

variable {β : Type} {a b : Arena β} {x id : NodeId} {n : Node β} {v : Value}
variable {specs : List Spec} {placed ids : List NodeId}

theorem Ordered.of_wiring? (h : a.Ordered ids) (hw : b.wiring? = a.wiring?) : b.Ordered ids := by
  intro before x after he y hy
  exact h before x after he y (producers_of_wiring? hw ▸ hy)

/-! ### One node -/

theorem spec?_setSpecs (hn : a.node? id = some n) (hv : v.node ≠ id) :
    (a.setSpecs id specs).spec? v = a.spec? v := by
  simp only [spec?, output?, node?_setSpecs hn, if_neg hv]

theorem exists_setSpecs (hn : a.node? id = some n) (hlen : specs.length = n.outputs.length) :
    ∃ m, (a.setSpecs id specs).node? id = some m ∧ m.op = n.op ∧ m.inputs = n.inputs ∧
      m.specs = specs := by
  refine ⟨_, (node?_setSpecs hn).trans (if_pos rfl), rfl, rfl, ?_⟩
  rw [Node.specs, List.map_zipWith]
  simpa [List.zip, List.map_zipWith] using List.map_snd_zip hlen.le

variable [Described β]

theorem confirms_iff : a.Confirms x ↔ ∃ n given, a.node? x = some n ∧
    n.inputs.map a.spec? = given.map some ∧ a.infer n.op given = .ok n.specs := by
  constructor
  · rintro ⟨n, hn, e⟩
    obtain ⟨given, hgiven⟩ := (inferNode_eq_specs_iff hn).mp e
    exact ⟨n, given, hn, hgiven⟩
  · rintro ⟨n, given, hn, hgiven⟩
    exact ⟨n, hn, (inferNode_eq_specs_iff hn).mpr ⟨given, hgiven⟩⟩

/-- Nodes that do not read a node are not concerned by its specs. -/
theorem Confirms.setSpecs (h : a.Confirms x) (hn : a.node? id = some n) (hx : x ≠ id)
    (hr : ¬ a.Reads x id) : (a.setSpecs id specs).Confirms x := by
  obtain ⟨m, given, hm, hgiven, hout⟩ := confirms_iff.mp h
  refine confirms_iff.mpr ⟨m, given, ?_, ?_, hout⟩
  · rw [node?_setSpecs hn, if_neg hx, hm]
  · rw [← hgiven]
    refine List.map_congr_left fun v hv => spec?_setSpecs hn fun he => hr ?_
    exact he ▸ reads_of_input hm hv

theorem confirms_setSpecs (e : a.inferNode id = .ok specs) (hr : ¬ a.Reads id id) :
    (a.setSpecs id specs).Confirms id := by
  obtain ⟨n, given, hn, hgiven, hout, hlen⟩ := inferNode_eq_ok_iff.mp e
  obtain ⟨m, hm, hop, hinputs, hspecs⟩ := exists_setSpecs hn hlen
  refine confirms_iff.mpr ⟨m, given, hm, ?_, ?_⟩
  · rw [hinputs, ← hgiven]
    refine List.map_congr_left fun v hv => spec?_setSpecs hn fun he => hr ?_
    have hread := reads_of_input hn hv
    rwa [he] at hread
  · rw [hop, hspecs]
    exact hout

/-! ### One sweep -/

theorem Ordered.confirms_inferAll (ho : a.Ordered (placed ++ ids)) (hnodup : (placed ++ ids).Nodup)
    (hplaced : ∀ x ∈ placed, a.Confirms x) (e : a.inferAll ids = (b, .ok ())) :
    ∀ x ∈ placed ++ ids, b.Confirms x := by
  induction ids generalizing a placed with
  | nil =>
    obtain ⟨rfl, -⟩ := Prod.mk.inj e
    simpa using hplaced
  | cons id ids ih =>
    unfold inferAll at e
    split at e
    case h_2 => cases (Prod.mk.inj e).2
    rename_i specs hspecs
    obtain ⟨n, -, hn, -, -, hlen⟩ := inferNode_eq_ok hspecs
    have hid : id ∉ placed := fun hm =>
      (List.disjoint_of_nodup_append hnodup) hm List.mem_cons_self
    have hself : ¬ a.Reads id id := fun hr => hid (ho placed id ids rfl id hr)
    have hnext : (a.setSpecs id specs).Ordered ((placed ++ [id]) ++ ids) :=
      (List.append_cons placed id ids ▸ ho).of_wiring? (wiring?_setSpecs hn hlen)
    have hconfirms : ∀ x ∈ placed ++ [id], (a.setSpecs id specs).Confirms x := by
      intro x hx
      rcases List.mem_append.mp hx with hx | hx
      · have hr : ¬ a.Reads x id := fun hr => hid (ho.of_append.mem hx hr)
        exact (hplaced x hx).setSpecs hn (ne_of_mem_of_not_mem hx hid) hr
      · obtain rfl := List.mem_singleton.mp hx
        exact confirms_setSpecs hspecs hself
    rw [List.append_cons] at hnodup ⊢
    exact ih hnext hnodup hconfirms e

theorem revalidate_eq_ok (e : a.revalidate = (b, .ok ())) : ∃ order c,
    a.topologicalOrder = .ok order ∧ a.inferAll order = (c, .ok ()) ∧ b = c.bump := by
  unfold revalidate at e
  split at e
  · cases (Prod.mk.inj e).2
  · rename_i order horder
    split at e
    · rename_i c hc
      exact ⟨order, c, horder, hc, (Prod.mk.inj e).1.symm⟩
    · cases (Prod.mk.inj e).2

theorem WellFormed.confirms_revalidate (ha : a.WellFormed) (e : a.revalidate = (b, .ok ())) :
    ∀ x, b.contains x = true → b.Confirms x := by
  obtain ⟨order, c, horder, hc, rfl⟩ := revalidate_eq_ok e
  obtain ⟨order', horder', hordered, hperm⟩ := ha.topologicalOrder_eq
  obtain rfl := Except.ok.inj (horder.symm.trans horder')
  rw [← order.nil_append] at hordered
  have hconfirms := hordered.confirms_inferAll (hperm.nodup_iff.mpr nodup_nodeIds) (by simp) hc
  intro x hx
  refine hconfirms x (hperm.mem_iff.mpr (mem_nodeIds_iff_contains.mpr ?_))
  have hwiring := wiring?_inferAll (a := a) order
  rw [hc] at hwiring
  rw [contains_eq_wiring?, ← hwiring]
  exact contains_eq_wiring?.symm.trans hx

theorem WellFormed.inferred_revalidate {g h : Graph} (hg : g.WellFormed)
    (e : g.revalidate = (h, .ok ())) : h.Inferred := by
  intro x n hn
  obtain ⟨m, hm, hinfer⟩ := hg.confirms_revalidate e x (contains_of_node? hn)
  obtain rfl := Option.some.inj (hn.symm.trans hm)
  exact hinfer

/-- A sweep that succeeds changes specs only, leaves those that inference gives, and is the last
one that does: the next raises the version and changes nothing else. Where the specs are those
that inference gives already, the first one is like this. -/
theorem WellFormed.revalidate_settles {g : Graph} (hg : g.WellFormed) :
    (∀ h, g.revalidate = (h, .ok ()) →
      h.Inferred ∧ h.wiring? = g.wiring? ∧ h.parameters = g.parameters ∧ h.results = g.results ∧
        h.version = g.version + 1 ∧ h.revalidate = (h.bump, .ok ())) ∧
    (g.Inferred → g.revalidate = (g.bump, .ok ())) := by
  refine ⟨fun h e => ?_, fun hi => hi.revalidate hg⟩
  have hinferred : h.Inferred := hg.inferred_revalidate e
  have hwf : h.WellFormed := by simpa [e] using hg.revalidate
  obtain ⟨order, c, -, hc, rfl⟩ := revalidate_eq_ok e
  have hwiring := wiring?_inferAll (a := g) order
  have hframe : (g.inferAll order).1.parameters = g.parameters ∧
      (g.inferAll order).1.results = g.results ∧ (g.inferAll order).1.version = g.version :=
    inferAll_induction (P := fun b => b.parameters = g.parameters ∧ b.results = g.results ∧
      b.version = g.version) (fun _ _ _ h => h) ⟨rfl, rfl, rfl⟩ order
  rw [hc] at hwiring hframe
  obtain ⟨hparameters, hresults, hversion⟩ := hframe
  exact ⟨hinferred, hwiring, hparameters, hresults, congrArg (· + 1) hversion,
    hinferred.revalidate hwf⟩

/-- A sum and its transpose by a subgraph, after the summands were replaced by a larger matrix. -/
def outgrown : Graph := reached .standard [
  .addParameter "a" ⟨.f32, .ofSizes [2, 3]⟩,
  .addParameter "b" ⟨.f32, .ofSizes [4, 5]⟩,
  .addNode Primitive.add [⟨⟨0, 0⟩, 0⟩, ⟨⟨0, 0⟩, 0⟩],
  .addNode (.subgraph flipped) [⟨⟨2, 0⟩, 0⟩],
  .replace ⟨⟨0, 0⟩, 0⟩ ⟨⟨1, 0⟩, 0⟩]

/-- The sweep has the subgraph inferred on the sum that it has revised before. -/
theorem revalidate_settles_outgrown :
    let v : Value := ⟨⟨3, 0⟩, 0⟩
    outgrown.WellFormed ∧ outgrown.spec? v = some ⟨.f32, .ofSizes [3, 2]⟩ ∧
      ∃ h, outgrown.revalidate = (h, .ok ()) ∧ h.spec? v = some ⟨.f32, .ofSizes [5, 4]⟩ ∧
        h.Inferred ∧ h.wiring? = outgrown.wiring? ∧ h.revalidate = (h.bump, .ok ()) := by
  intro v
  have hwf : outgrown.WellFormed := wellFormed_reached _ _
  have hbefore : outgrown.spec? v = some ⟨.f32, .ofSizes [3, 2]⟩ := by cbv
  have hafter : outgrown.revalidate.1.spec? v = some ⟨.f32, .ofSizes [5, 4]⟩ := by cbv
  have hok : outgrown.revalidate.2.toOption.map id = some () := by cbv
  obtain ⟨⟨⟩, hresult, -⟩ := map_toOption_eq_some_iff.mp hok
  have he : outgrown.revalidate = (outgrown.revalidate.1, .ok ()) := Prod.ext rfl hresult
  obtain ⟨hinferred, hwiring, -⟩ := hwf.revalidate_settles.1 _ he
  have hagain := hwf.revalidate.revalidate_settles.2 hinferred
  exact ⟨hwf, hbefore, _, he, hafter, hinferred, hwiring, hagain⟩

end Arena

end TensorGraph
