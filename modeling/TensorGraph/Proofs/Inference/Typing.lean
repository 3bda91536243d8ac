import TensorGraph.Proofs.Inference.Types
import TensorGraph.Proofs.Rewrite.History

/-! # Typed graphs

In a typed graph the element types of the outputs of every node are such as inference gives on the
element types of its inputs. Shapes are left out: a rewrite may change what is known of a shape,
but it never changes an element type.
-/

namespace TensorGraph

variable {β : Type}

def Arena.type? (a : Arena β) (v : Value) : Option ElementType := (a.spec? v).map Spec.elementType

namespace Plan

def type? (p : Plan β) (a : Arena β) (x : Operand) : Option ElementType :=
  (p.spec? a x).map Spec.elementType

/-- Staged nodes have such element types as inference gives. -/
def Typed (p : Plan Body) (g : Graph) : Prop := ∀ n ∈ p.staged,
  n.op.Types (n.inputs.map (p.type? g)) (n.outputs.map Spec.elementType)

end Plan

namespace Arena

variable {a b : Arena β} {g h : Graph} {x : NodeId} {n : Node Body} {v : Value} {p : Plan β}
variable {q : Plan Body} {ids : List NodeId}

def Typed (g : Graph) : Prop := ∀ x n, g.bare? x = some n →
  n.op.Types (n.inputs.map g.type?) (n.specs.map Spec.elementType)

theorem Typed.node (ht : g.Typed) (hn : g.node? x = some n) :
    n.op.Types (n.inputs.map g.type?) (n.specs.map Spec.elementType) := by
  have hty := ht x n.bare (congrArg (Option.map Node.bare) hn)
  have hspecs : n.bare.specs = n.specs := List.map_map
  rwa [hspecs] at hty

/-- The nodes of a typed graph have as many inputs as the standard table says. -/
theorem Typed.length_inputs {k : Nat} (ht : g.Typed) (hn : g.node? x = some n)
    (ha : (Capability.standard n.kind).arity = .exactly k) : n.inputs.length = k :=
  List.length_map g.type? ▸ (ht.node hn).length_inputs ha

theorem type?_of_node? (hn : g.node? x = some n) (port : Nat) :
    g.type? (x.output port) = (n.specs.map Spec.elementType)[port]? := by
  simp [type?, spec?, output?, NodeId.output, hn, Node.specs]

theorem Typed.keep (ht : g.Typed) (hn : g.node? x = some n) (hin : n.inputs = [v])
    (hk : n.kind ∈ [.transpose, .reshape, .squeeze, .unsqueeze, .reduceMax]) :
    ∃ t, g.type? v = some t ∧ n.specs.map Spec.elementType = [t] := by
  obtain ⟨t, hins, houts⟩ := (ht.node hn).keep hk
  rw [hin] at hins
  exact ⟨t, (List.cons.inj hins).1, houts⟩

theorem specs_eq_ok_iff {values : List Value} {specs : List Spec} :
    a.specs values = .ok specs ↔ values.map a.spec? = specs.map some := by
  refine mapM_eq_ok_iff fun v s => ?_
  cases a.spec? v <;> simp

theorem inferNode_eq_ok_iff [Described β] {specs : List Spec} : a.inferNode x = .ok specs ↔
    ∃ n given, a.node? x = some n ∧ n.inputs.map a.spec? = given.map some ∧
      a.infer n.op given = .ok specs ∧ specs.length = n.outputs.length := by
  constructor
  · intro e
    obtain ⟨n, given, hn, hgiven, hout, hlen⟩ := inferNode_eq_ok e
    exact ⟨n, given, hn, specs_eq_ok_iff.mp hgiven, hout, hlen⟩
  · rintro ⟨n, given, hn, hgiven, hout, hlen⟩
    simp [inferNode, bind_eq_ok_iff, node_eq_ok_iff, hn, specs_eq_ok_iff.mpr hgiven, hout, hlen,
      pure, Except.pure]

/-- Inference gives the specs that a node has, if it does so on the specs of its inputs. -/
theorem inferNode_eq_specs_iff [Described β] {n : Node β} (hn : a.node? x = some n) :
    a.inferNode x = .ok n.specs ↔
      ∃ given, n.inputs.map a.spec? = given.map some ∧ a.infer n.op given = .ok n.specs := by
  rw [inferNode_eq_ok_iff]
  constructor
  · rintro ⟨m, given, hm, hgiven, hout, -⟩
    obtain rfl := Option.some.inj (hn.symm.trans hm)
    exact ⟨given, hgiven, hout⟩
  · rintro ⟨given, hgiven, hout⟩
    exact ⟨n, given, hn, hgiven, hout, List.length_map _⟩

/-- The recorded specs are those that inference gives. -/
def Inferred (g : Graph) : Prop := ∀ x n, g.node? x = some n → g.inferNode x = .ok n.specs

theorem inferred_of_nodeIds
    (h : ∀ x ∈ g.nodeIds, (g.node? x).map (fun n => .ok n.specs) = some (g.inferNode x)) :
    g.Inferred := by
  intro x n hn
  have hx := h x (mem_nodeIds_iff.mpr ⟨n, hn⟩)
  rw [hn] at hx
  exact (Option.some.inj hx).symm

/-- The recorded specs of the inputs of a node, and what inference gives on them. -/
theorem Inferred.exists_given (h : g.Inferred) (ht : g.table = .standard)
    (hn : g.node? x = some n) : ∃ given, n.inputs.map g.spec? = given.map some ∧
      CapabilityTable.standard.infer (n.op.map Described.describe) given = .ok n.specs := by
  rw [← ht]
  exact (inferNode_eq_specs_iff hn).mp (h x n hn)

/-- Where the recorded specs are those that inference gives, so are the element types. -/
theorem typed_of_inferred (ht : g.table = .standard) (h : g.Inferred) : g.Typed := by
  intro x m hm
  obtain ⟨n, hn, rfl⟩ := Option.map_eq_some_iff.mp hm
  obtain ⟨given, hin, hout⟩ := h.exists_given ht hn
  refine ⟨given, n.specs, ?_, hout, ?_⟩
  · have htypes := congrArg (List.map (Option.map Spec.elementType)) hin
    rw [List.map_map, List.map_map] at htypes
    exact htypes.symm
  · simp [Node.specs, Node.bare]

theorem Typed.of_part (ht : g.Typed) (hh : h.Linked)
    (hpart : ∀ x, h.contains x = true → h.bare? x = g.bare? x) : h.Typed := by
  intro x n hn
  have hx : h.contains x = true := contains_of_bare? hn
  have hty := ht x n ((hpart x hx).symm.trans hn)
  have hins : n.inputs.map h.type? = n.inputs.map g.type? := by
    refine List.map_congr_left fun v hv => ?_
    rw [type?, type?, spec?_eq_bare, spec?_eq_bare, hpart _ (hh.contains_of_input hn hv)]
  rwa [hins]

/-! ### Rewired graphs -/

theorem Rewired.spec?_old (hr : a.Rewired b p ids) (hv : a.contains v.node = true) :
    b.spec? v = a.spec? v := by
  rw [spec?_eq_bare, spec?_eq_bare, hr.old _ fun hm => hr.fresh _ hm hv]
  cases a.bare? v.node <;> rfl

/-- An operand has the spec of the value that it stands for. -/
theorem Rewired.spec?_resolve (hr : a.Rewired b p ids) {y : Operand} {s : Spec}
    (hs : p.spec? a y = some s) : b.spec? (y.resolve ids) = some s := by
  cases y with
  | graph v =>
    exact (hr.spec?_old (contains_of_spec? hs)).trans hs
  | staged index port =>
    obtain ⟨n, hn, hport⟩ := Option.bind_eq_some_iff.mp hs
    have hlt : index < ids.length := hr.length ▸ (List.getElem?_eq_some_iff.mp hn).1
    have hid := List.getElem?_eq_getElem hlt
    obtain ⟨name, hnew⟩ := hr.new index n _ hn hid
    rw [resolve_staged hid, spec?_eq_bare, NodeId.output, hnew]
    simp [StagedNode.fresh, Node.fresh, hport]

theorem Rewired.type?_resolve (hr : a.Rewired b p ids) {y : Operand} {t : ElementType}
    (ht : p.type? a y = some t) : b.type? (y.resolve ids) = some t := by
  obtain ⟨s, hs, rfl⟩ := Option.map_eq_some_iff.mp ht
  exact congrArg (Option.map Spec.elementType) (hr.spec?_resolve hs)

theorem Typed.rewired (ht : g.Typed) (hg : g.Linked) (hp : q.Accepted g) (hq : q.Typed g)
    (hr : g.Rewired h q ids) : h.Typed := by
  have hredirect (v : Value) : h.type? (q.redirect ids v) = h.type? v := by
    refine apply_redirectAll (fun r hr' => ?_) v
    obtain ⟨s, hs, rfl⟩ := List.mem_map.mp hr'
    obtain ⟨-, old, new, hold, hnew, htype⟩ := hp.replacements s hs
    have hlive : g.contains s.1.node = true := contains_of_spec? hold
    rw [type?, type?, hr.spec?_resolve hnew, hr.spec?_old hlive, hold]
    exact congrArg some htype.symm
  intro x n hn
  rcases hr.cases hn with ⟨-, m, hm, rfl⟩ | ⟨i, s, name, hs, -, rfl⟩
  · have hinputs : (m.inputs.map (q.redirect ids)).map h.type? = m.inputs.map g.type? := by
      rw [List.map_map]
      refine List.map_congr_left fun v hv => (hredirect v).trans ?_
      rw [type?, type?, hr.spec?_old (hg.contains_of_input hm hv)]
    have hty := ht x m hm
    rwa [← hinputs] at hty
  · have hty := hq s (List.mem_of_getElem? hs)
    have hins (y : Operand) (hy : y ∈ s.inputs) : h.type? (y.resolve ids) = q.type? g y := by
      obtain ⟨t, ht⟩ := hty.exists_type (List.mem_map_of_mem hy)
      rw [ht, hr.type?_resolve ht]
    have hinputs : (s.inputs.map (Operand.resolve ids)).map h.type? =
        s.inputs.map (q.type? g) := by
      rw [List.map_map]
      exact List.map_congr_left hins
    rw [← hinputs] at hty
    simpa [Node.specs, StagedNode.fresh, Node.fresh, Function.comp_def] using hty

end Arena

end TensorGraph
