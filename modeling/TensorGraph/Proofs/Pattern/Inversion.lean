import Mathlib.Data.List.Nodup
import TensorGraph.Pass.Pattern
import TensorGraph.Proofs.Pattern.Bindings

/-! # Successful matches

What a successful match says of the graph, read off the term from its root towards the inputs.
-/

namespace TensorGraph

variable {g : Graph} {bs bs' : Bindings} {v : Value} {id : NodeId} {m : Match}
variable {label : Nat} {kinds : List Kind} {inputs : List Term} {guard : Guard}

theorem Guard.test_onOperation {text : String} {test : Operation Body → Bool} {n : Node Body}
    {port : Nat} (hn : g.node? id = some n)
    (h : (Guard.onOperation text test).test g (id.output port) = true) : test n.op = true := by
  have hany : (g.node? id).any (fun n => test n.op) = true := h
  rwa [hn] at hany

@[simp] theorem Bindings.value?_nil (label : Nat) : Bindings.value? [] label = none := rfl

@[simp] theorem Bindings.value?_cons (b : Binding) (bs : Bindings) (label : Nat) :
    Bindings.value? (b :: bs) label =
      if b.label = label then some b.value else bs.value? label := by
  rw [value?, List.find?_cons]
  split
  · rename_i h
    rw [if_pos (eq_of_beq h), Option.map_some]
  · rename_i h
    rw [if_neg (ne_of_beq_false h), value?]

namespace Term

theorem matchInputs_nil {vs : List Value} (e : matchInputs g [] vs bs = (true, bs')) :
    bs' = bs := by
  unfold matchInputs at e
  exact (Prod.mk.inj e).2.symm

theorem matchInputs_cons {t : Term} {ts : List Term} {vs : List Value}
    (e : matchInputs g (t :: ts) (v :: vs) bs = (true, bs')) :
    ∃ bound, t.matchValue g v bs = (true, bound) ∧ matchInputs g ts vs bound = (true, bs') := by
  unfold matchInputs at e
  split at e
  · rename_i bound hbound
    exact ⟨bound, hbound, e⟩
  · cases (Prod.mk.inj e).1

theorem matchValue_input (hl : bs.value? label = none)
    (e : (input label guard).matchValue g v bs = (true, bs')) :
    g.hasOutput v = true ∧ guard.test g v = true ∧ bs' = ⟨label, v, false⟩ :: bs := by
  unfold matchValue at e
  rw [hl] at e
  dsimp only at e
  split at e
  · rename_i h
    obtain ⟨houtput, htest⟩ := Bool.and_eq_true_iff.mp h
    exact ⟨houtput, htest, (Prod.mk.inj e).2.symm⟩
  · cases (Prod.mk.inj e).1

/-- The producer of a value that matches an operation. -/
theorem matchValue_wrap (hl : bs.value? label = none)
    (e : (wrap label kinds inputs guard).matchValue g v bs = (true, bs')) :
    ∃ n, g.node? v.node = some n ∧ n.kind ∈ kinds ∧ v.port < n.outputs.length ∧
      (inputs = [] ∨ n.inputs.length = inputs.length) ∧ guard.test g v = true ∧
      matchInputs g inputs n.inputs (⟨label, v, true⟩ :: bs) = (true, bs') := by
  unfold matchValue at e
  rw [hl] at e
  dsimp only at e
  split at e
  · rename_i operands ho
    obtain ⟨n, hn, hkind, hport, harity, htest, rfl⟩ := Graph.operands?_eq_some_iff.mp ho
    exact ⟨n, hn, hkind, hport, harity.imp_left List.length_eq_zero_iff.mp, htest, e⟩
  · cases (Prod.mk.inj e).1

end Term

namespace Pattern

variable {p : Pattern}

theorem matchNode_eq_some (e : p.matchNode g id = some m) :
    ∃ bs, p.root.matchValue g (id.output 0) [] = (true, bs) ∧ m = ⟨id.output 0, bs.reverse⟩ := by
  unfold matchNode at e
  split at e
  · cases e
  · split at e
    · cases e
    · unfold matchOutput at e
      split at e
      · rename_i bs hbs
        exact ⟨bs, hbs, (Option.some.inj e).symm⟩
      · cases e

/-- A match of an operation alone. -/
theorem matchNode_leaf {size : Nat}
    (e : (⟨.wrap 0 kinds [] guard, size⟩ : Pattern).matchNode g id = some m) :
    ∃ n, g.node? id = some n ∧ n.kind ∈ kinds ∧ guard.test g (id.output 0) = true ∧
      m = ⟨id.output 0, [⟨0, id.output 0, true⟩]⟩ := by
  obtain ⟨bs, hbs, rfl⟩ := matchNode_eq_some e
  obtain ⟨n, hn, hkind, -, -, htest, hbs⟩ := Term.matchValue_wrap rfl hbs
  obtain rfl := Term.matchInputs_nil hbs
  exact ⟨n, hn, hkind, htest, rfl⟩

/-- A match of an operation with one input. -/
theorem matchNode_unary {size : Nat}
    (e : (⟨.wrap 1 kinds [.input 0 .always] guard, size⟩ : Pattern).matchNode g id = some m) :
    ∃ n v, g.node? id = some n ∧ n.kind ∈ kinds ∧ n.inputs = [v] ∧
      guard.test g (id.output 0) = true ∧
      m = ⟨id.output 0, [⟨1, id.output 0, true⟩, ⟨0, v, false⟩]⟩ := by
  obtain ⟨bs, hbs, rfl⟩ := matchNode_eq_some e
  obtain ⟨n, hn, hkind, -, harity, htest, hbs⟩ := Term.matchValue_wrap rfl hbs
  obtain ⟨v, hin⟩ := List.length_eq_one_iff.mp (harity.resolve_left (List.cons_ne_nil _ _))
  rw [hin] at hbs
  obtain ⟨bound, hv, hbs⟩ := Term.matchInputs_cons hbs
  obtain ⟨-, -, rfl⟩ := Term.matchValue_input rfl hv
  obtain rfl := Term.matchInputs_nil hbs
  exact ⟨n, v, hn, hkind, hin, htest, rfl⟩

/-- A match of two operations in a row with one input each. -/
theorem matchNode_chain {size : Nat} {kinds' : List Kind}
    (e : (⟨.wrap 2 kinds [.wrap 1 kinds' [.input 0 .always] .always] guard, size⟩ :
      Pattern).matchNode g id = some m) :
    ∃ n w n' v, g.node? id = some n ∧ n.kind ∈ kinds ∧ n.inputs = [w] ∧
      g.node? w.node = some n' ∧ n'.kind ∈ kinds' ∧ n'.inputs = [v] ∧
      guard.test g (id.output 0) = true ∧
      m = ⟨id.output 0, [⟨2, id.output 0, true⟩, ⟨1, w, true⟩, ⟨0, v, false⟩]⟩ := by
  obtain ⟨bs, hbs, rfl⟩ := matchNode_eq_some e
  obtain ⟨n, hn, hkind, -, harity, htest, hbs⟩ := Term.matchValue_wrap rfl hbs
  obtain ⟨w, hin⟩ := List.length_eq_one_iff.mp (harity.resolve_left (List.cons_ne_nil _ _))
  rw [hin] at hbs
  obtain ⟨bound, hw, hbs⟩ := Term.matchInputs_cons hbs
  obtain ⟨n', hn', hkind', -, harity', -, hw⟩ := Term.matchValue_wrap rfl hw
  obtain ⟨v, hin'⟩ := List.length_eq_one_iff.mp (harity'.resolve_left (List.cons_ne_nil _ _))
  rw [hin'] at hw
  obtain ⟨bound', hv, hw⟩ := Term.matchInputs_cons hw
  obtain ⟨-, -, rfl⟩ := Term.matchValue_input rfl hv
  obtain rfl := Term.matchInputs_nil hw
  obtain rfl := Term.matchInputs_nil hbs
  exact ⟨n, w, n', v, hn, hkind, hin, hn', hkind', hin', htest, rfl⟩

end Pattern

namespace Match

theorem mem_nodes_iff :
    id ∈ m.nodes ↔ ∃ b ∈ m.bindings, b.isOperation = true ∧ b.value.node = id := by
  rw [nodes, List.mem_eraseDups, List.mem_map]
  simp only [List.mem_filter, and_assoc]

theorem mem_nodes_singleton {root : NodeId} {label : Nat} :
    id ∈ (Match.mk (root.output 0) [⟨label, root.output 0, true⟩]).nodes ↔ id = root := by
  rw [mem_nodes_iff]
  simp [NodeId.output, @eq_comm _ id]

theorem mem_nodes {b : Binding} (hb : b ∈ m.bindings) (hop : b.isOperation = true) :
    b.value.node ∈ m.nodes :=
  mem_nodes_iff.mpr ⟨b, hb, hop, rfl⟩

theorem nodup_eraseDups : (ids : List NodeId) → ids.eraseDups.Nodup
  | [] => .nil
  | id :: ids => by
    rw [List.eraseDups_cons]
    refine List.nodup_cons.mpr ⟨fun hid => ?_, nodup_eraseDups _⟩
    simpa using List.mem_eraseDups.mp hid
termination_by ids => ids.length
decreasing_by exact Nat.lt_succ_of_le (List.length_filter_le _ _)

theorem nodup_nodes (m : Match) : m.nodes.Nodup := nodup_eraseDups _

end Match

end TensorGraph
