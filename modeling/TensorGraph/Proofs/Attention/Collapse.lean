import TensorGraph.Proofs.Attention.Mirroring
import TensorGraph.Proofs.Rewrite.Drafting

/-! # Collapsing an island

The plan for an island puts one subgraph in its place, which reads what enters the island and has
outputs of the specs of what leaves it. Such a plan can be made for every island that fits, and it
is accepted if the island is convex: nothing that the subgraph depends on reads the island.
-/

namespace TensorGraph

namespace Arena

variable {β : Type} {a : Arena β}

theorem exists_specs {vs : List Value} (h : ∀ v ∈ vs, a.hasOutput v = true) :
    ∃ specs : List Spec, vs.map a.spec? = specs.map some := by
  induction vs with
  | nil => exact ⟨[], rfl⟩
  | cons v vs ih =>
    obtain ⟨hv, hvs⟩ := List.forall_mem_cons.mp h
    obtain ⟨spec, hspec⟩ := Option.isSome_iff_exists.mp (hasOutput_eq_spec?.symm.trans hv)
    obtain ⟨specs, hspecs⟩ := ih hvs
    exact ⟨spec :: specs, by simp [hspec, hspecs]⟩

end Arena

namespace Attention.Island

open Relation (ReflTransGen)

variable {g : Graph} {i : Island} {b : Boundary} {p : Plan Body}
variable {n : StagedNode Body} {v : Value} {x : NodeId} {port : Nat}

/-- A plan that stages one node, which reads what enters an island, for all that leaves it. -/
structure Swap (b : Boundary) (n : StagedNode Body) (p : Plan Body) : Prop where
  staged : p.staged = [n]
  inputs : n.inputs = b.inputs.map .graph
  replacements : p.replacements = b.outputs.zipIdx.map fun x => (x.1, .staged 0 x.2)

/-- A plan that puts one subgraph in the place of an island. -/
structure Collapse (i : Island) (g : Graph) (b : Boundary) (n : StagedNode Body) (p : Plan Body) :
    Prop where
  staged : p.staged = [n]
  kind : n.op.kind = .subgraph
  inputs : n.inputs = b.inputs.map .graph
  outputs : b.outputs.map g.spec? = n.outputs.map some
  inferred : ∃ given, b.inputs.map g.spec? = given.map some ∧ g.infer n.op given = .ok n.outputs
  replacements : p.replacements = b.outputs.zipIdx.map fun x => (x.1, .staged 0 x.2)
  sources : ∀ x ∈ p.sources, x ∈ i.nodes

theorem exists_collapse (hg : g.WellFormed) (ht : g.table = .standard) (hi : g.Inferred)
    (h : i.Fits g) (hne : i.nodes ≠ []) (e : i.boundary g = .ok b) :
    ∃ n p, i.replacement g b = .ok p ∧ i.Collapse g b n p := by
  obtain ⟨c, hbody, hmirrors⟩ := exists_body hg ht hi h e
  obtain ⟨sink, hsink⟩ : ∃ sink, g.node? i.sink = some sink := by
    apply Arena.contains_iff.mp
    apply h.contains
    rw [sink, List.getLast?_eq_some_getLast hne]
    exact List.mem_append_left _ (List.getLast_mem hne)
  obtain ⟨given, hgiven⟩ :=
    Arena.exists_specs fun v hv => hasOutput_of_mem_inputs hg.linked e hv
  obtain ⟨specs, hspecs⟩ := Arena.exists_specs fun v hv => hasOutput_of_mem_outputs e hv
  have hinfer := hmirrors.infer_eq ht hgiven hspecs
  refine ⟨i.stagedSubgraph b c.body specs sink.name, i.collapsed b c.body specs sink.name, ?_, ?_⟩
  · exact replacement_eq_ok_iff.mpr
      ⟨c.body, sink, given, specs, hbody, hsink, hgiven, hinfer, rfl⟩
  · constructor
    · rfl
    · rfl
    · rfl
    · exact hspecs
    · exact ⟨given, hgiven, hinfer⟩
    · rfl
    · exact fun x hx => mem_sources_collapsed.mp hx

namespace Swap

variable (hs : Swap b n p)
include hs

theorem mem_replacements_iff {s : Value × Operand} :
    s ∈ p.replacements ↔ ∃ port, b.outputs[port]? = some s.1 ∧ s.2 = .staged 0 port := by
  rw [hs.replacements, List.mem_map]
  constructor
  · rintro ⟨⟨v, port⟩, hv, rfl⟩
    exact ⟨port, List.mem_zipIdx_iff_getElem?.mp hv, rfl⟩
  · rintro ⟨port, hv, he⟩
    exact ⟨(s.1, port), List.mem_zipIdx_iff_getElem?.mpr hv, Prod.ext rfl he.symm⟩

theorem reaches_of_mem_dependencies (e : i.boundary g = .ok b) (hx : x ∈ p.dependencies g) :
    ∃ m ∈ i.nodes, ∃ w, g.Reads m w ∧ w ∉ i.nodes ∧ ReflTransGen g.Reads w x := by
  have hinput (y : Operand) (hy : y ∈ p.stagedInputs 0) : ∃ v ∈ b.inputs, y = .graph v := by
    rw [Plan.stagedInputs, hs.staged] at hy
    have hy : y ∈ n.inputs := hy
    rw [hs.inputs] at hy
    obtain ⟨v, hv, rfl⟩ := List.mem_map.mp hy
    exact ⟨v, hv, rfl⟩
  have hroot (w : NodeId) (hw : w ∈ p.graphRoots (p.replacements.map (·.2))) :
      ∃ v ∈ b.inputs, w = v.node := by
    obtain ⟨y, hy, hnode⟩ := List.mem_filterMap.mp hw
    rcases List.mem_append.mp hy with hy | hy
    · obtain ⟨s, hmem, rfl⟩ := List.mem_map.mp hy
      obtain ⟨port, -, he⟩ := hs.mem_replacements_iff.mp hmem
      rw [he] at hnode
      cases hnode
    · obtain ⟨k, hk, hy⟩ := List.mem_flatMap.mp hy
      have hk := mem_domain_of_mem_closure hk
      rw [hs.staged, List.length_singleton, List.mem_range, Nat.lt_one_iff] at hk
      subst hk
      obtain ⟨v, hv, rfl⟩ := hinput y hy
      exact ⟨v, hv, (Option.some.inj hnode).symm⟩
  obtain ⟨w, hw, hpath⟩ := Arena.exists_root_of_mem_ancestors hx
  obtain ⟨v, hv, rfl⟩ := hroot w hw
  obtain ⟨⟨m, hm, n, hn, hmem⟩, hout, -⟩ := (mem_inputs_iff e).mp hv
  exact ⟨m, hm, v.node, Arena.reads_of_input hn hmem, hout, hpath⟩

/-- Nothing that reads what leaves a convex island is needed by what enters it. -/
theorem not_mem_dependencies (hg : g.Linked) (hconvex : i.Convex g) (e : i.boundary g = .ok b)
    {s : Value × Operand} (hmem : s ∈ p.replacements) {u : Use} (hu : u ∈ g.uses s.1) :
    u.node ∉ p.dependencies g := by
  intro hd
  obtain ⟨port, hv, -⟩ := hs.mem_replacements_iff.mp hmem
  obtain ⟨hnode, -⟩ := (mem_outputs_iff e).mp (List.mem_of_getElem? hv)
  obtain ⟨m, hm, w, hread, hw, hpath⟩ := hs.reaches_of_mem_dependencies e hd
  have hreads := Arena.reads_of_producer? (hg.mem_uses_iff.mp hu)
  exact (hconvex.outside hm hread hw hpath).2 s.1.node hnode hreads

end Swap

namespace Collapse

section

variable (hc : i.Collapse g b n p)
include hc

theorem swap : Swap b n p := ⟨hc.staged, hc.inputs, hc.replacements⟩

theorem spec?_staged : p.spec? g (.staged 0 port) = n.outputs[port]? := by
  simp [Plan.spec?, hc.staged]

/-- What takes the place of a value has its spec. -/
theorem spec?_output (hv : b.outputs[port]? = some v) : n.outputs[port]? = g.spec? v := by
  have hat := congrArg (·[port]?) hc.outputs
  simp only [List.getElem?_map, hv, Option.map_some] at hat
  cases ho : n.outputs[port]? with
  | none => simp [ho] at hat
  | some spec => simpa [ho] using hat.symm

theorem keepsSpecs : p.KeepsSpecs g := by
  constructor
  · rw [hc.staged, List.forall_mem_singleton]
    obtain ⟨given, hgiven, hinfer⟩ := hc.inferred
    refine ⟨given, ?_, hinfer⟩
    rw [hc.inputs, List.map_map]
    exact hgiven
  · intro s hs
    obtain ⟨port, hv, he⟩ := hc.swap.mem_replacements_iff.mp hs
    rw [he, hc.spec?_staged, hc.spec?_output hv]

end

/-- The plan for a convex island is accepted. -/
theorem accepted (hc : i.Collapse g b n p) (hg : g.WellFormed) (h : i.Fits g)
    (hconvex : i.Convex g) (e : i.boundary g = .ok b) : p.Accepted g := by
  constructor
  · intro k m hm y hy
    rw [hc.staged, List.getElem?_singleton] at hm
    split at hm
    · obtain rfl := Option.some.inj hm
      rw [hc.inputs] at hy
      obtain ⟨v, hv, rfl⟩ := List.mem_map.mp hy
      exact hasOutput_of_mem_inputs hg.linked e hv
    · cases hm
  · intro x hx
    exact h.contains (List.mem_append_left _ (hc.sources x hx))
  · intro s hs
    obtain ⟨port, hv, he⟩ := hc.swap.mem_replacements_iff.mp hs
    have hout := hasOutput_of_mem_outputs e (List.mem_of_getElem? hv)
    obtain ⟨spec, hspec⟩ := Option.isSome_iff_exists.mp (Arena.hasOutput_eq_spec?.symm.trans hout)
    rw [he]
    constructor
    · exact Operand.noConfusion
    · refine ⟨spec, spec, hspec, ?_, rfl⟩
      rw [hc.spec?_staged, hc.spec?_output hv, hspec]
  · intro s hs u hu
    exact hc.swap.not_mem_dependencies hg.linked hconvex e hs hu

end Collapse

end Attention.Island

end TensorGraph
