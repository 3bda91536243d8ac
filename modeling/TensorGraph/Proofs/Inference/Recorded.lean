import TensorGraph.Proofs.Inference.Preservation

/-! # What recorded specs say of one another

The standard rules, each read off as what the specs of the inputs and of the outputs have to do
with one another. In a graph whose recorded specs are inferred they link the specs of a node to
those of the nodes it reads.
-/

namespace TensorGraph

variable {p : Primitive} {given outputs : List Spec} {s a b : Spec}

/-! ### Standard rules -/

namespace Operation

theorem infer_standard_eq_ok_iff {op : Operation Interface} :
    CapabilityTable.standard.infer op given = .ok outputs ↔
      (Capability.standard op.kind).arity.accepts given.length = true ∧
        (Capability.standard op.kind).rule op given = .ok outputs := by
  refine ⟨infer_standard_eq_ok, fun ⟨harity, hrule⟩ => ?_⟩
  simp only [CapabilityTable.infer, CapabilityTable.standard]
  rw [if_pos harity, hrule]

theorem accepts_exactly_iff {n k : Nat} : (Arity.exactly n).accepts k = true ↔ k = n := by
  refine ⟨accepts_exactly, ?_⟩
  rintro rfl
  simp [Arity.accepts, Arity.exactly]

/-- Operations without parameters are known by their kind. -/
theorem eq_primitive {β : Type} {op : Operation β} (p : Primitive)
    (hp : p ∈ [.add, .multiply, .fullyConnected]) (h : op.kind = p.kind) : op = .primitive p := by
  simp only [List.mem_cons, List.not_mem_nil, or_false] at hp
  cases op with
  | primitive q => rcases hp with rfl | rfl | rfl <;> cases q <;> first | rfl | cases h
  | subgraph body => exact absurd h.symm p.kind_ne_subgraph

end Operation

namespace CapabilityTable

open Operation

theorem infer_constant_iff {t : Tensor} :
    standard.infer (.primitive (.constant t)) given = .ok outputs ↔
      given = [] ∧ outputs = [t.spec] := by
  rw [infer_standard_eq_ok_iff]
  refine and_congr (accepts_exactly_iff.trans List.length_eq_zero_iff) ?_
  exact ⟨fun e => (Except.ok.inj e).symm, fun e => congrArg Except.ok e.symm⟩

theorem infer_arithmetic_iff (hp : p ∈ [.add, .subtract, .multiply]) :
    standard.infer (.primitive p) given = .ok outputs ↔
      ∃ a b s, given = [a, b] ∧ Inferred.arithmetic a b = .ok s ∧ outputs = [s] := by
  have hc : Capability.standard p.kind = ⟨.exactly 2, Rule.arithmetic⟩ := by
    simp only [List.mem_cons, List.not_mem_nil, or_false] at hp
    rcases hp with rfl | rfl | rfl <;> rfl
  rw [infer_standard_eq_ok_iff, Operation.kind, hc, accepts_exactly_iff, List.length_eq_two]
  constructor
  · rintro ⟨⟨a, b, rfl⟩, e⟩
    obtain ⟨s, hs, rfl⟩ := Inferred.bind_singleton_eq_ok_iff.mp e
    exact ⟨a, b, s, rfl, hs, rfl⟩
  · rintro ⟨a, b, s, rfl, hs, rfl⟩
    exact ⟨⟨a, b, rfl⟩, Inferred.bind_singleton_eq_ok_iff.mpr ⟨s, hs, rfl⟩⟩

theorem infer_fullyConnected_iff :
    standard.infer (.primitive .fullyConnected) given = .ok outputs ↔
      ∃ (a b : Spec) (bias : Option Spec) (s : Spec), given = a :: b :: bias.toList ∧
        Inferred.fullyConnected a b bias = .ok s ∧ outputs = [s] := by
  rw [infer_standard_eq_ok_iff]
  refine (and_iff_right_of_imp fun e => ?_).trans Rule.fullyConnected_eq_ok_iff
  obtain ⟨a, b, bias, s, rfl, -⟩ := Rule.fullyConnected_eq_ok_iff.mp e
  cases bias <;> rfl

/-- Rules that look at one input and give one output. -/
theorem infer_first_iff {rule : Primitive → Option (Spec → Inferred Spec)}
    {f : Spec → Inferred Spec}
    (hc : Capability.standard p.kind = ⟨.exactly 1, Rule.ofFirst rule⟩) (hp : rule p = some f) :
    standard.infer (.primitive p) given = .ok outputs ↔
      ∃ s s', given = [s] ∧ f s = .ok s' ∧ outputs = [s'] := by
  rw [infer_standard_eq_ok_iff, Operation.kind, hc, accepts_exactly_iff, List.length_eq_one_iff]
  constructor
  · rintro ⟨⟨s, rfl⟩, e⟩
    simp only [Rule.ofFirst, hp] at e
    obtain ⟨s', hs, rfl⟩ := Inferred.bind_singleton_eq_ok_iff.mp e
    exact ⟨s, s', rfl, hs, rfl⟩
  · rintro ⟨s, s', rfl, hs, rfl⟩
    simp only [Rule.ofFirst, hp]
    exact ⟨⟨s, rfl⟩, Inferred.bind_singleton_eq_ok_iff.mpr ⟨s', hs, rfl⟩⟩

theorem infer_unique_iff {indexType : ElementType} {axis : Option Int} :
    standard.infer (.primitive (.unique indexType axis)) given = .ok outputs ↔
      ∃ s, given = [s] ∧ Inferred.unique indexType axis s = .ok outputs := by
  rw [infer_standard_eq_ok_iff]
  constructor
  · rintro ⟨harity, e⟩
    obtain ⟨s, rfl⟩ := List.length_eq_one_iff.mp (accepts_exactly harity)
    exact ⟨s, rfl, e⟩
  · rintro ⟨s, rfl, e⟩
    exact ⟨rfl, e⟩

end CapabilityTable

/-! ### Recorded specs -/

namespace Arena

variable {g h : Graph} {x : NodeId} {n : Node Body} {u v : Value} {t : Tensor}

theorem spec?_of_node? (hn : g.node? v.node = some n) : g.spec? v = n.specs[v.port]? := by
  simp [spec?, output?, hn, Node.specs]

theorem spec?_of_nodes (hnode : h.node? = g.node?) : h.spec? = g.spec? :=
  spec?_congr (funext fun x => by rw [bare?, hnode, bare?])

/-- The only spec of a node is that of whatever value it has. -/
theorem spec_eq_of_single (hn : g.node? v.node = some n) (hspecs : n.specs = [s])
    (ha : g.spec? v = some a) : a = s := by
  rw [spec?_of_node? hn, hspecs, List.getElem?_singleton] at ha
  split at ha
  · exact (Option.some.inj ha).symm
  · cases ha

/-- Inference node by node, in one equation. -/
theorem inferred_of_map (h : g.nodeIds.map (fun x => (g.node? x).map fun n => .ok n.specs) =
    g.nodeIds.map fun x => some (g.inferNode x)) : g.Inferred :=
  inferred_of_nodeIds (List.map_inj_left.mp h)

theorem Inferred.of_bare (hg : g.Inferred) (ht : h.table = g.table) (hb : h.bare? = g.bare?) :
    h.Inferred := by
  rw [inferred_iff] at hg ⊢
  intro x n hn
  obtain ⟨given, hin, hout⟩ := hg x n (hb ▸ hn)
  exact ⟨given, by rwa [spec?_congr hb], by rwa [infer, ht]⟩

section Inferred

variable (hi : g.Inferred) (ht : g.table = .standard) (hn : g.node? x = some n)
include hi ht hn

theorem Inferred.given_of_op (hop : n.op = .primitive p) :
    ∃ given, n.inputs.map g.spec? = given.map some ∧
      CapabilityTable.standard.infer (.primitive p) given = .ok n.specs := by
  obtain ⟨given, hin, hout⟩ := hi.exists_given ht hn
  rw [hop] at hout
  exact ⟨given, hin, hout⟩

theorem Inferred.constant (hop : n.op = .primitive (.constant t)) : n.specs = [t.spec] := by
  obtain ⟨given, -, hout⟩ := hi.given_of_op ht hn hop
  exact (CapabilityTable.infer_constant_iff.mp hout).2

theorem Inferred.arithmetic (hp : p ∈ [.add, .subtract, .multiply]) (hop : n.op = .primitive p)
    (hin : n.inputs = [u, v]) : ∃ a b s, g.spec? u = some a ∧ g.spec? v = some b ∧
      Inferred.arithmetic a b = .ok s ∧ n.specs = [s] := by
  obtain ⟨given, hgiven, hout⟩ := hi.given_of_op ht hn hop
  obtain ⟨a, b, s, rfl, hs, houtputs⟩ := (CapabilityTable.infer_arithmetic_iff hp).mp hout
  rw [hin] at hgiven
  obtain ⟨ha, hgiven⟩ := List.cons.inj hgiven
  exact ⟨a, b, s, ha, (List.cons.inj hgiven).1, hs, houtputs⟩

theorem Inferred.fullyConnected (hop : n.op = .primitive .fullyConnected)
    (hin : n.inputs = [u, v]) : ∃ a b s, g.spec? u = some a ∧ g.spec? v = some b ∧
      Inferred.fullyConnected a b none = .ok s ∧ n.specs = [s] := by
  obtain ⟨given, hgiven, hout⟩ := hi.given_of_op ht hn hop
  obtain ⟨a, b, bias, s, rfl, hs, houtputs⟩ := CapabilityTable.infer_fullyConnected_iff.mp hout
  rw [hin] at hgiven
  obtain ⟨ha, hgiven⟩ := List.cons.inj hgiven
  obtain ⟨hb, hbias⟩ := List.cons.inj hgiven
  obtain rfl : bias = none := by simpa using hbias
  exact ⟨a, b, s, ha, hb, hs, houtputs⟩

end Inferred

/-- A value that names a constant has the spec of that constant. -/
theorem Inferred.spec_constant (hi : g.Inferred) (ht : g.table = .standard)
    (hv : (g.node? v.node).bind (fun n => n.op.constant?) = some t) (ha : g.spec? v = some a) :
    a = t.spec := by
  obtain ⟨n, hn, hop⟩ := Option.bind_eq_some_iff.mp hv
  exact spec_eq_of_single hn (hi.constant ht hn (Operation.constant?_eq_some_iff.mp hop)) ha

end Arena

end TensorGraph
