import TensorGraph.Pattern.Match

/-! # Bindings of a match

A match binds the values that it comes across, each when it reaches the term for it. What holds of
every binding that the terms of a pattern can make holds of all bindings of a match.
-/

namespace TensorGraph

variable {g : Graph} {D : Term → Prop} {Q : Binding → Prop}

/-- The operands of a value are the inputs of its producer, if that passes all checks. -/
theorem Graph.operands?_eq_some_iff {kinds : List Kind} {arity : Nat} {guard : Guard} {v : Value}
    {vs : List Value} : g.operands? kinds arity guard v = some vs ↔
      ∃ n, g.node? v.node = some n ∧ n.kind ∈ kinds ∧ v.port < n.outputs.length ∧
        (arity = 0 ∨ n.inputs.length = arity) ∧ guard.test g v = true ∧ n.inputs = vs := by
  cases hn : g.node? v.node with
  | none => simp [operands?, hn]
  | some n => simp [operands?, hn, and_assoc]

namespace Term

def parts : Term → List Term
  | input _ _ => []
  | wrap _ _ inputs _ | optional _ _ inputs _ => inputs
  | oneOf _ branches => branches

/-- Terms with the one property are made from such terms, and in the graph they bind with the
other property only. -/
structure Binds (g : Graph) (D : Term → Prop) (Q : Binding → Prop) : Prop where
  parts : ∀ t, D t → ∀ u ∈ t.parts, D u
  input : ∀ label guard v, D (.input label guard) → Q ⟨label, v, false⟩
  wrap : ∀ label kinds inputs guard v operands, D (.wrap label kinds inputs guard) →
    g.operands? kinds inputs.length guard v = some operands → Q ⟨label, v, true⟩
  optional : ∀ label kinds inputs guard v operands, D (.optional label kinds inputs guard) →
    g.operands? kinds inputs.length guard v = some operands → Q ⟨label, v, true⟩

mutual
theorem Binds.matchValue (hD : Binds g D Q) : ∀ (t : Term) (v : Value) (bs : Bindings), D t →
    (∀ b ∈ bs, Q b) → ∀ b ∈ (t.matchValue g v bs).2, Q b
  | .input label guard, v, bs, ht, h => by
    unfold Term.matchValue
    split
    · exact h
    · split
      · exact List.forall_mem_cons.mpr ⟨hD.input label guard v ht, h⟩
      · exact h
  | .wrap label kinds inputs guard, v, bs, ht, h => by
    unfold Term.matchValue
    split
    · exact h
    · split
      · rename_i operands hv
        have hQ := hD.wrap label kinds inputs guard v operands ht hv
        exact hD.matchInputs inputs operands _ (hD.parts _ ht) (List.forall_mem_cons.mpr ⟨hQ, h⟩)
      · exact h
  | .optional label kinds inputs guard, v, bs, ht, h => by
    unfold Term.matchValue
    split
    · exact h
    · split
      · rename_i operands hv
        have hQ := hD.optional label kinds inputs guard v operands ht hv
        have hbound := hD.matchInputs inputs operands _ (hD.parts _ ht)
          (List.forall_mem_cons.mpr ⟨hQ, h⟩)
        split
        · rename_i bound e
          rwa [e] at hbound
        · exact hD.matchHead inputs v bs (hD.parts _ ht) h
      · exact hD.matchHead inputs v bs (hD.parts _ ht) h
  | .oneOf _ branches, v, bs, ht, h => by
    unfold Term.matchValue
    exact hD.matchBranches branches v bs (hD.parts _ ht) h

theorem Binds.matchInputs (hD : Binds g D Q) : ∀ (ts : List Term) (vs : List Value)
    (bs : Bindings), (∀ t ∈ ts, D t) → (∀ b ∈ bs, Q b) → ∀ b ∈ (matchInputs g ts vs bs).2, Q b
  | [], vs, bs, _, h => by
    unfold Term.matchInputs
    exact h
  | t :: ts, [], bs, _, h => by
    unfold Term.matchInputs
    exact h
  | t :: ts, v :: vs, bs, ht, h => by
    obtain ⟨ht, hts⟩ := List.forall_mem_cons.mp ht
    have hbound := hD.matchValue t v bs ht h
    unfold Term.matchInputs
    split <;> rename_i bound e <;> rw [e] at hbound
    · exact hD.matchInputs ts vs bound hts hbound
    · exact hbound

theorem Binds.matchHead (hD : Binds g D Q) : ∀ (ts : List Term) (v : Value) (bs : Bindings),
    (∀ t ∈ ts, D t) → (∀ b ∈ bs, Q b) → ∀ b ∈ (matchHead g ts v bs).2, Q b
  | [], v, bs, _, h => by
    unfold Term.matchHead
    exact h
  | t :: ts, v, bs, ht, h => by
    unfold Term.matchHead
    exact hD.matchValue t v bs (ht t List.mem_cons_self) h

theorem Binds.matchBranches (hD : Binds g D Q) : ∀ (ts : List Term) (v : Value) (bs : Bindings),
    (∀ t ∈ ts, D t) → (∀ b ∈ bs, Q b) → ∀ b ∈ (matchBranches g ts v bs).2, Q b
  | [], v, bs, _, h => by
    unfold Term.matchBranches
    exact h
  | t :: ts, v, bs, ht, h => by
    obtain ⟨ht, hts⟩ := List.forall_mem_cons.mp ht
    have hbound := hD.matchValue t v bs ht h
    unfold Term.matchBranches
    split
    · rename_i bound e
      rwa [e] at hbound
    · exact hD.matchBranches ts v bs hts h
end

end Term

namespace Pattern

variable {p : Pattern} {m : Match} {v : Value} {id : NodeId}

theorem matchOutput_of_matchNode (e : p.matchNode g id = some m) :
    p.matchOutput g (id.output 0) = some m := by
  unfold matchNode at e
  split at e
  · cases e
  · split at e
    · cases e
    · exact e

theorem forall_bindings (hD : Term.Binds g D Q) (hp : D p.root)
    (e : p.matchOutput g v = some m) : ∀ b ∈ m.bindings, Q b := by
  have h := hD.matchValue p.root v [] hp fun _ hb => absurd hb List.not_mem_nil
  unfold matchOutput at e
  split at e
  · rename_i bs hbs
    obtain rfl := Option.some.inj e
    rw [hbs] at h
    intro b hb
    exact h b (List.mem_reverse.mp hb)
  · cases e

end Pattern

end TensorGraph
