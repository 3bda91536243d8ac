import TensorGraph.Proofs.Inference.Typing
import TensorGraph.Proofs.Rewrite.Tightness

/-! # Recorded specs that stay inferred

Where the recorded specs are those that inference gives, they still are in a part of the graph, in
the graph with one more inferred node, and after a commit that replaces values by values of the
very same specs. Such a commit also keeps the specs of what the results receive.
-/

namespace TensorGraph

variable {β : Type}

/-- Staged nodes have the outputs that inference gives, and what replaces a value has its spec. -/
structure Plan.KeepsSpecs (p : Plan Body) (g : Graph) : Prop where
  staged : ∀ n ∈ p.staged, ∃ given, n.inputs.map (p.spec? g) = given.map some ∧
    g.infer n.op given = .ok n.outputs
  replaced : ∀ r ∈ p.replacements, p.spec? g r.2 = g.spec? r.1

namespace Arena

variable {a b : Arena β} {g h : Graph} {x id : NodeId} {n : Node Body} {v : Value}
variable {p : Plan Body} {ids : List NodeId} {k : Nat}

theorem Node.specs_bare (n : Node β) : n.bare.specs = n.specs := List.map_map

/-- Every node has the outputs that inference gives on the recorded specs of its inputs. -/
theorem inferred_iff : g.Inferred ↔ ∀ x n, g.bare? x = some n →
    ∃ given, n.inputs.map g.spec? = given.map some ∧ g.infer n.op given = .ok n.specs := by
  constructor
  · intro h x m hm
    obtain ⟨n, hn, rfl⟩ := Option.map_eq_some_iff.mp hm
    rw [Node.specs_bare]
    exact (inferNode_eq_specs_iff hn).mp (h x n hn)
  · intro h x n hn
    obtain ⟨given, hin, hout⟩ := h x n.bare (congrArg (Option.map Node.bare) hn)
    rw [Node.specs_bare] at hout
    exact (inferNode_eq_specs_iff hn).mpr ⟨given, hin, hout⟩

/-! ### Parts -/

theorem spec?_of_part (hpart : ∀ x, b.contains x = true → b.bare? x = a.bare? x)
    (hv : b.contains v.node = true) : b.spec? v = a.spec? v := by
  rw [spec?_eq_bare, spec?_eq_bare, hpart _ hv]

theorem Inferred.of_part (hg : g.Inferred) (hh : h.Linked) (ht : h.table = g.table)
    (hpart : ∀ x, h.contains x = true → h.bare? x = g.bare? x) : h.Inferred := by
  rw [inferred_iff] at hg ⊢
  intro x n hn
  obtain ⟨given, hin, hout⟩ := hg x n ((hpart x (contains_of_bare? hn)).symm.trans hn)
  refine ⟨given, ?_, by rwa [infer, ht]⟩
  rw [← hin]
  exact List.map_congr_left fun v hv => spec?_of_part hpart (hh.contains_of_input hn hv)

/-! ### One more node -/

/-- A graph with one more node is inferred if the new node is. -/
theorem Inferred.of_grown (hg : g.Inferred) (hl : g.Linked) (ht : h.table = g.table)
    (hold : ∀ y, y ≠ x → h.bare? y = g.bare? y) (hfresh : ¬ g.contains x = true)
    (hx : ∀ n, h.bare? x = some n → ∃ given, n.inputs.map h.spec? = given.map some ∧
      g.infer n.op given = .ok n.specs) : h.Inferred := by
  rw [inferred_iff] at hg ⊢
  intro y n hn
  by_cases hy : y = x
  · obtain ⟨given, hin, hout⟩ := hx n (hy ▸ hn)
    exact ⟨given, hin, by rwa [infer, ht]⟩
  · rw [hold y hy] at hn
    obtain ⟨given, hin, hout⟩ := hg y n hn
    refine ⟨given, ?_, by rwa [infer, ht]⟩
    rw [← hin]
    refine List.map_congr_left fun v hv => ?_
    have hlive := hl.contains_of_input hn hv
    have hne : v.node ≠ x := fun he => hfresh (he ▸ hlive)
    rw [spec?_eq_bare, spec?_eq_bare, hold _ hne]

/-! ### What results receive -/

theorem resultSpecs_eq (a : Arena β) :
    a.resultSpecs = a.results.filterMap fun id => (a.producer? (id.input 0)).bind a.spec? := by
  unfold resultSpecs
  refine List.filterMap_congr fun id _ => ?_
  rw [producer?]
  cases hn : a.node? id with
  | none => simp [NodeId.input, hn]
  | some n => simp [NodeId.input, hn, List.head?_eq_getElem?]

theorem resultSpecs_of_part (hb : b.WellFormed) (hresults : b.results = a.results)
    (hpart : ∀ x, b.contains x = true → b.bare? x = a.bare? x) :
    b.resultSpecs = a.resultSpecs := by
  rw [resultSpecs_eq, resultSpecs_eq, ← hresults]
  refine List.filterMap_congr fun id hid => ?_
  have hlive : b.contains (id.input 0).node = true := contains_of_kind? (hb.results id hid)
  have hproducer : b.producer? (id.input 0) = a.producer? (id.input 0) := by
    rw [producer?_eq_bare, producer?_eq_bare, hpart (id.input 0).node hlive]
  rw [← hproducer]
  cases hv : b.producer? (id.input 0) with
  | none => rfl
  | some v => exact spec?_of_part hpart (contains_of_hasOutput (hb.linked.hasOutput hv))

/-! ### Commits -/

section Rewired

variable (hr : g.Rewired h p ids) (hp : p.Accepted g) (hk : p.KeepsSpecs g)
include hr hp hk

theorem Rewired.spec?_redirect (hv : g.contains v.node = true) :
    h.spec? (p.redirect ids v) = g.spec? v := by
  refine (apply_redirectAll (fun r hr' => ?_) v).trans (hr.spec?_old hv)
  obtain ⟨s, hs, rfl⟩ := List.mem_map.mp hr'
  obtain ⟨-, old, new, hold, hnew, -⟩ := hp.replacements s hs
  rw [hr.spec?_resolve hnew, hr.spec?_old (contains_of_spec? hold), ← hk.replaced s hs, hnew]

theorem Inferred.rewired (hg : g.Inferred) (hl : g.Linked) : h.Inferred := by
  rw [inferred_iff] at hg ⊢
  intro x n hn
  rcases hr.cases hn with ⟨-, m, hm, rfl⟩ | ⟨i, s, name, hs, -, rfl⟩
  · obtain ⟨given, hin, hout⟩ := hg x m hm
    refine ⟨given, ?_, by rwa [infer, hr.table]⟩
    rw [← hin, List.map_map]
    exact List.map_congr_left fun v hv => hr.spec?_redirect hp hk (hl.contains_of_input hm hv)
  · obtain ⟨given, hin, hout⟩ := hk.staged s (List.mem_of_getElem? hs)
    have hspecs : (s.fresh (g.mergedAnnotations p.sources)).specs = s.outputs := by
      simp [Node.specs, StagedNode.fresh, Node.fresh, Function.comp_def]
    refine ⟨given, ?_, ?_⟩
    · rw [← hin, List.map_map]
      refine List.map_congr_left fun y hy => ?_
      have hmem : p.spec? g y ∈ given.map some := hin ▸ List.mem_map_of_mem hy
      obtain ⟨spec, -, hspec⟩ := List.mem_map.mp hmem
      rw [← hspec]
      exact hr.spec?_resolve hspec.symm
    · rw [infer, hr.table]
      exact hout.trans (congrArg Except.ok hspecs.symm)

theorem Rewired.resultSpecs (hg : g.WellFormed) : h.resultSpecs = g.resultSpecs := by
  rw [resultSpecs_eq, resultSpecs_eq, hr.results]
  refine List.filterMap_congr fun id hid => ?_
  have hold : (id.input 0).node ∉ ids :=
    hr.not_mem_of_contains (contains_of_kind? (hg.results id hid))
  rw [hr.producer?_old hold]
  cases hv : g.producer? (id.input 0) with
  | none => rfl
  | some v =>
    exact hr.spec?_redirect hp hk (contains_of_hasOutput (hg.linked.hasOutput hv))

end Rewired

theorem table_apply (hg : g.WellFormed) (hp : p.Accepted g) : (g.apply p).1.table = g.table :=
  (remains_apply hg hp).table.trans (rewired_rewire hg hp).table

theorem Inferred.apply (hi : g.Inferred) (hg : g.WellFormed) (hp : p.Accepted g)
    (hk : p.KeepsSpecs g) : (g.apply p).1.Inferred := by
  have hremains := remains_apply hg hp
  have hrewired := hi.rewired (rewired_rewire hg hp) hp hk hg.linked
  exact hrewired.of_part (hg.apply hp).linked hremains.table hremains.bare

theorem resultSpecs_apply (hg : g.WellFormed) (hp : p.Accepted g) (hk : p.KeepsSpecs g) :
    (g.apply p).1.resultSpecs = g.resultSpecs := by
  have hremains := remains_apply hg hp
  have hrewired := (rewired_rewire hg hp).resultSpecs hp hk hg
  exact (resultSpecs_of_part (hg.apply hp) hremains.results hremains.bare).trans hrewired

end Arena

end TensorGraph
