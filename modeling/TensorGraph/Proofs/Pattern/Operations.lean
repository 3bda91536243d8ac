import TensorGraph.Proofs.Arena.WellFormed
import TensorGraph.Proofs.Pattern.Building

/-! # Operations in every match

Some terms hold only where an operation of a certain kind is: at the value, or at one that it is
computed from. Whatever else a match takes, it takes that operation too.
-/

namespace TensorGraph

open Relation

variable {g : Graph} {σ : Nat → Option Value} {v w : Value} {vs : List Value} {k : Kind}
variable {t : Term} {ts : List Term} {used : List Nat}

namespace Term

def isOperation : Term → Bool
  | input _ _ | oneOf _ _ => false
  | wrap _ _ _ _ | optional _ _ _ _ => true

/-- Wherever the term holds there is an operation of the kind, which the term binds. -/
inductive Leads (k : Kind) : Term → Prop
  | here {label : Nat} {inputs : List Term} {guard : Guard} :
      Leads k (.wrap label [k] inputs guard)
  | operand {label : Nat} {kinds : List Kind} {inputs : List Term} {guard : Guard} {t : Term}
      (mem : t ∈ inputs) (leads : Leads k t) : Leads k (.wrap label kinds inputs guard)
  | oneOf {label : Nat} {branches : List Term} (leads : ∀ t ∈ branches, Leads k t) :
      Leads k (.oneOf label branches)

/-- The term is an operation of the kind, and one of its operands leads to another. -/
inductive Stacks (k : Kind) : Term → Prop
  | intro {label : Nat} {inputs : List Term} {guard : Guard} {t : Term} (mem : t ∈ inputs)
      (leads : t.Leads k) : Stacks k (.wrap label [k] inputs guard)

theorem HoldAll.exists_of_mem (h : HoldAll g σ ts vs used) (ht : t ∈ ts) :
    ∃ w ∈ vs, ∃ used', t.Holds g σ w used' := by
  induction ts generalizing vs used with
  | nil => exact absurd ht List.not_mem_nil
  | cons u ts ih =>
    cases h with
    | @cons _ _ v vs _ _ head tail =>
      rcases List.mem_cons.mp ht with rfl | ht
      · exact ⟨v, List.mem_cons_self, _, head⟩
      · obtain ⟨w, hw, hholds⟩ := ih tail ht
        exact ⟨w, List.mem_cons_of_mem _ hw, hholds⟩

theorem Leads.exists_operation (hts : Scope ts) (hl : t.Leads k) (ht : t ∈ ts)
    (h : t.Holds g σ v used) : ∃ u ∈ ts, u.isOperation = true ∧ ∃ w, σ u.label = some w ∧
      g.kind? w.node = some k ∧ ReflTransGen g.Reads v.node w.node := by
  induction hl generalizing v used with
  | @here label inputs guard =>
    cases h with
    | @wrap _ _ _ _ _ n _ bound produces operands =>
      have hkind := List.mem_singleton.mp produces.kind
      exact ⟨_, ht, rfl, v, bound, Arena.kind?_eq_some_iff.mpr ⟨n, produces.node, hkind⟩, .refl⟩
  | operand mem leads ih =>
    cases h with
    | @wrap _ _ _ _ _ n _ bound produces operands =>
      obtain ⟨w, hw, used', hholds⟩ := operands.exists_of_mem mem
      obtain ⟨u, hu, hop, x, hx, hkind, hreach⟩ := ih (hts.parts _ ht _ mem).1 hholds
      exact ⟨u, hu, hop, x, hx, hkind, .head (Arena.reads_of_input produces.node hw) hreach⟩
  | oneOf leads ih =>
    cases h with
    | oneOf mem branch => exact ih _ mem (hts.parts _ ht _ mem).1 branch

theorem binds_marked (hts : Scope ts) :
    Binds g (· ∈ ts) fun b => ∃ t ∈ ts, t.label = b.label ∧ t.isOperation = b.isOperation := by
  constructor
  · intro t ht u hu
    exact (hts.parts t ht u hu).1
  · intro label guard v ht
    exact ⟨_, ht, rfl, rfl⟩
  · intro label kinds inputs guard v operands ht _
    exact ⟨_, ht, rfl, rfl⟩
  · intro label kinds inputs guard v operands ht _
    exact ⟨_, ht, rfl, rfl⟩

end Term

namespace Pattern

variable {p : Pattern} {m : Match}

theorem node_mem_nodes (hts : Term.Scope ts) (hroot : p.root ∈ ts)
    (e : p.matchOutput g v = some m) (ht : t ∈ ts) (hop : t.isOperation = true)
    (hw : m.value? t.label = some w) : w.node ∈ m.nodes := by
  obtain ⟨b, hb, hlabel, rfl⟩ := Bindings.exists_mem_of_value? hw
  obtain ⟨u, hu, hlabel', hmark⟩ := forall_bindings (Term.binds_marked hts) hroot e b hb
  obtain rfl := hts.unique u hu t ht (hlabel'.trans hlabel)
  exact Match.mem_nodes hb (hmark.symm.trans hop)

theorem exists_operations (hp : p.Built) (hstacks : p.root.Stacks k)
    (e : p.matchOutput g v = some m) : v.node ∈ m.nodes ∧ g.kind? v.node = some k ∧
      ∃ x ∈ m.nodes, g.kind? x = some k ∧ TransGen g.Reads v.node x := by
  obtain ⟨-, used, hused, -⟩ := holds_of_matchOutput hp e
  obtain ⟨ts, made, hroot, -⟩ := hp
  have hts := made.scope
  have hnode {t : Term} {w : Value} := node_mem_nodes (t := t) (w := w) hts hroot e
  generalize p.root = root at hstacks hused hroot
  cases hstacks with
  | @intro label inputs guard t mem leads =>
    cases hused with
    | @wrap _ _ _ _ _ n _ bound produces operands =>
      have hkind := List.mem_singleton.mp produces.kind
      obtain ⟨w, hw, used', hholds⟩ := operands.exists_of_mem mem
      obtain ⟨u, hu, hop, x, hx, hkind', hreach⟩ :=
        leads.exists_operation hts (hts.parts _ hroot _ mem).1 hholds
      constructor
      · exact hnode hroot rfl bound
      constructor
      · exact Arena.kind?_eq_some_iff.mpr ⟨n, produces.node, hkind⟩
      · exact ⟨x.node, hnode hu hop hx, hkind',
          .head' (Arena.reads_of_input produces.node hw) hreach⟩

end Pattern

namespace Builder

variable {P : Kind → Prop} {known inputs : List Term} {kinds : List Kind} {guard : Guard}

theorem ensures_operand (hk : ∀ k ∈ kinds, P k) (hi : inputs ⊆ known) (ht : t ∈ inputs)
    (hl : t.Leads k) : Ensures P known (wrap kinds inputs guard) (Term.Leads k) :=
  ensures_wrap hk hi fun _ => .operand ht hl

end Builder

end TensorGraph
