import TensorGraph.Proofs.Pattern.Bindings

/-! # Kinds of matched operations

A binding of an operation names a node of one of the kinds that the term gives for it. What all
these kinds have in common holds of every node of a match.
-/

namespace TensorGraph

variable {P : Kind → Prop} {g : Graph} {v : Value} {id : NodeId}

namespace Term

mutual
def Wraps (P : Kind → Prop) : Term → Prop
  | input _ _ => True
  | wrap _ kinds inputs _ | optional _ kinds inputs _ => (∀ k ∈ kinds, P k) ∧ WrapsAll P inputs
  | oneOf _ branches => WrapsAll P branches

def WrapsAll (P : Kind → Prop) : List Term → Prop
  | [] => True
  | t :: ts => t.Wraps P ∧ WrapsAll P ts
end

end Term

theorem Term.wrapsAll_iff {ts : List Term} : WrapsAll P ts ↔ ∀ t ∈ ts, t.Wraps P := by
  induction ts with
  | nil => simp [WrapsAll]
  | cons t ts ih => simp [WrapsAll, ih]

theorem Term.binds_wraps :
    Binds g (Wraps P) fun b => b.isOperation = true → ∃ k, g.kind? b.value.node = some k ∧ P k := by
  have hkind {kinds : List Kind} (hk : ∀ k ∈ kinds, P k) {arity : Nat} {guard : Guard}
      {v : Value} {operands : List Value} (hv : g.operands? kinds arity guard v = some operands) :
      ∃ k, g.kind? v.node = some k ∧ P k := by
    obtain ⟨n, hn, hkind, -⟩ := Graph.operands?_eq_some_iff.mp hv
    exact ⟨n.kind, congrArg (Option.map Node.kind) hn, hk _ hkind⟩
  constructor
  · intro t ht u hu
    cases t with
    | input => exact absurd hu List.not_mem_nil
    | wrap | optional => exact wrapsAll_iff.mp ht.2 u hu
    | oneOf => exact wrapsAll_iff.mp ht u hu
  · intro label guard v _ hop
    exact absurd hop Bool.false_ne_true
  · intro label kinds inputs guard v operands ht hv _
    exact hkind ht.1 hv
  · intro label kinds inputs guard v operands ht hv _
    exact hkind ht.1 hv

/-- Every node of a match is of a kind that the pattern gives. -/
theorem Pattern.kind?_of_mem_nodes {p : Pattern} (hp : p.root.Wraps P) {m : Match}
    (e : p.matchNode g id = some m) {x : NodeId} (hx : x ∈ m.nodes) :
    ∃ k, g.kind? x = some k ∧ P k := by
  obtain ⟨b, hb, rfl⟩ := List.mem_map.mp (List.mem_eraseDups.mp hx)
  obtain ⟨hb, hop⟩ := List.mem_filter.mp hb
  exact forall_bindings Term.binds_wraps hp (matchOutput_of_matchNode e) b hb hop

end TensorGraph
