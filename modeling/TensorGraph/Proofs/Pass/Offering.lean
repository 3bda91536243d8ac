import TensorGraph.Proofs.Pass.Visit
import TensorGraph.Proofs.Pattern.Soundness

/-! # Offered nodes

A run offers to the matcher only nodes of the kinds that a root may have. These kinds are collected
along the same optional placeholders and choices that a match may follow before it has bound
anything, so no match is lost, and a run that offers every node does the same.
-/

namespace TensorGraph

variable {g : Graph} {v : Value} {id root : NodeId} {kinds given : List Kind}

namespace Term

def ProducedBy (g : Graph) (v : Value) (kinds : List Kind) : Prop :=
  ∃ k, g.kind? v.node = some k ∧ k ∈ kinds

theorem ProducedBy.mono (h : ProducedBy g v kinds) (hsub : kinds ⊆ given) : ProducedBy g v given :=
  h.imp fun _ => And.imp_right (hsub ·)

theorem producedBy_of_operands? {arity : Nat} {guard : Guard} {operands : List Value}
    (e : g.operands? kinds arity guard v = some operands) : ProducedBy g v kinds := by
  obtain ⟨n, hn, hkind, -⟩ := Graph.operands?_eq_some_iff.mp e
  exact ⟨n.kind, congrArg (Option.map Node.kind) hn, hkind⟩

mutual
theorem producedBy_kinds? : ∀ (t : Term) (v : Value) (kinds : List Kind),
    t.kinds? = some kinds → (t.matchValue g v []).1 = true → ProducedBy g v kinds
  | .input _ _, _, _, h, _ => by
    unfold kinds? at h
    cases h
  | .wrap label given inputs guard, v, kinds, h, e => by
    unfold kinds? at h
    obtain rfl := Option.some.inj h
    unfold matchValue at e
    simp only [Bindings.value?_nil] at e
    split at e
    · rename_i operands ho
      exact producedBy_of_operands? ho
    · cases e
  | .optional label given inputs guard, v, kinds, h, e => by
    unfold kinds? at h
    obtain ⟨rest, hrest, rfl⟩ := Option.map_eq_some_iff.mp h
    -- what was bound for the operation is dropped before the placeholder is left out
    have hskip (e : (matchHead g inputs v []).1 = true) : ProducedBy g v (given ++ rest) :=
      (producedBy_headKinds? inputs v rest hrest e).mono (List.subset_append_right _ _)
    unfold matchValue at e
    simp only [Bindings.value?_nil] at e
    split at e
    · rename_i operands ho
      exact (producedBy_of_operands? ho).mono (List.subset_append_left _ _)
    · exact hskip e
  | .oneOf label branches, v, kinds, h, e => by
    unfold kinds? at h
    unfold matchValue at e
    exact producedBy_branchKinds? branches v kinds h e

theorem producedBy_headKinds? : ∀ (ts : List Term) (v : Value) (kinds : List Kind),
    headKinds? ts = some kinds → (matchHead g ts v []).1 = true → ProducedBy g v kinds
  | [], _, _, _, e => by
    unfold matchHead at e
    cases e
  | t :: _, v, kinds, h, e => by
    unfold headKinds? at h
    unfold matchHead at e
    exact producedBy_kinds? t v kinds h e

theorem producedBy_branchKinds? : ∀ (ts : List Term) (v : Value) (kinds : List Kind),
    branchKinds? ts = some kinds → (matchBranches g ts v []).1 = true → ProducedBy g v kinds
  | [], _, _, _, e => by
    unfold matchBranches at e
    cases e
  | t :: ts, v, kinds, h, e => by
    unfold branchKinds? at h
    obtain ⟨first, hfirst, h⟩ := Option.bind_eq_some_iff.mp h
    obtain ⟨rest, hrest, h⟩ := Option.bind_eq_some_iff.mp h
    obtain rfl := Option.some.inj h
    unfold matchBranches at e
    split at e
    · rename_i bound hbound
      exact (producedBy_kinds? t v first hfirst (congrArg Prod.fst hbound)).mono
        (List.subset_append_left _ _)
    · exact (producedBy_branchKinds? ts v rest hrest e).mono (List.subset_append_right _ _)
end

end Term

theorem Pattern.kind?_of_rootKinds? {p : Pattern} {m : Match} (e : p.matchNode g id = some m)
    (h : p.rootKinds? = some kinds) : ∃ k, g.kind? id = some k ∧ k ∈ kinds := by
  obtain ⟨bs, hbs, -⟩ := matchNode_eq_some e
  obtain ⟨given, hgiven, rfl⟩ := Option.map_eq_some_iff.mp h
  obtain ⟨k, hk, hmem⟩ := Term.producedBy_kinds? p.root _ given hgiven (congrArg Prod.fst hbs)
  exact ⟨k, hk, List.mem_eraseDups.mpr hmem⟩

namespace PatternPass

variable {p : PatternPass}

theorem matchAt?_eq_matchNode (p : PatternPass) (g : Graph) (root : NodeId) :
    p.matchAt? g root = p.pattern.matchNode g root := by
  unfold matchAt?
  cases hk : g.kind? root with
  | none =>
    have hn : g.node? root = none := Option.map_eq_none_iff.mp hk
    simp only [Pattern.matchNode, hn]
  | some k =>
    dsimp only
    split
    · rfl
    · rename_i hout
      cases hm : p.pattern.matchNode g root with
      | none => rfl
      | some m =>
        refine absurd ?_ hout
        cases h : p.pattern.rootKinds? with
        | none => rfl
        | some kinds =>
          obtain ⟨k', hk', hmem⟩ := Pattern.kind?_of_rootKinds? hm h
          obtain rfl := Option.some.inj (hk.symm.trans hk')
          exact List.contains_iff_mem.mpr hmem

/-- A visit that offers every node to the matcher. -/
def offerAll (p : PatternPass) : List NodeId → Graph → Outcome → Run Outcome
  | [], g, outcome => (g, .ok outcome)
  | root :: roots, g, outcome =>
    match p.pattern.matchNode g root with
    | none => offerAll p roots g outcome
    | some m =>
      match p.visitMatch g root m with
      | (g, .error e) => (g, .error e)
      | (g, .ok o) => offerAll p roots g (outcome.merge o)

/-- A run that offers every node of the order at its start, whatever kind it is of. -/
def runOffered (p : PatternPass) (g : Graph) : Run Outcome :=
  match g.topologicalOrder with
  | .error e => (g, .error (.invariantViolation p.name none e))
  | .ok order => p.offerAll order g .none

theorem visitAll_eq_offerAll (roots : List NodeId) (g : Graph) (o : Outcome) :
    p.visitAll roots g o = p.offerAll roots g o := by
  induction roots generalizing g o with
  | nil => rfl
  | cons root roots ih =>
    simp only [visitAll, offerAll, matchAt?_eq_matchNode]
    cases p.pattern.matchNode g root with
    | none => exact ih g o
    | some m =>
      dsimp only
      cases p.visitMatch g root m with
      | mk g' r =>
        cases r with
        | error e => rfl
        | ok o' => exact ih g' (o.merge o')

/-- The kinds that a root may have hide no match, so a run that looks at them first ends with the
same result and the same graph as one that offers every node. -/
theorem run_eq_runOffered (p : PatternPass) (g : Graph) :
    (∀ id m kinds, p.pattern.matchNode g id = some m → p.pattern.rootKinds? = some kinds →
      ∃ k, g.kind? id = some k ∧ k ∈ kinds) ∧ p.run g = p.runOffered g := by
  refine ⟨fun _ _ _ => Pattern.kind?_of_rootKinds?, ?_⟩
  unfold run runOffered
  cases g.topologicalOrder with
  | error e => rfl
  | ok order => exact visitAll_eq_offerAll order g .none

/-- A pass for sums, or products whose first factor is a sum, that declines them all. -/
def scaledSum : PatternPass where
  name := "scaled-sum"
  pattern := Builder.finish do
    let sum ← Builder.wrap [.add] [] .always
    Builder.optional [.multiply] [sum] .always
  rewrite _ _ := .error .declined

/-- The sum matches where the product is left out, and its kind is one of those of the root. -/
theorem run_eq_runOffered_doubled : scaledSum.pattern.rootKinds? = some [.multiply, .add] ∧
    (scaledSum.pattern.matchNode Pattern.doubled ⟨1, 0⟩).isSome = true ∧
    (∃ k, Pattern.doubled.kind? ⟨1, 0⟩ = some k ∧ k ∈ [.multiply, .add]) ∧
    scaledSum.run Pattern.doubled = scaledSum.runOffered Pattern.doubled := by
  have hkinds : scaledSum.pattern.rootKinds? = some [.multiply, .add] := by rfl
  obtain ⟨m, hm⟩ : ∃ m, scaledSum.pattern.matchNode Pattern.doubled ⟨1, 0⟩ = some m := ⟨_, rfl⟩
  obtain ⟨hroots, hrun⟩ := run_eq_runOffered scaledSum Pattern.doubled
  exact ⟨hkinds, hm ▸ rfl, hroots _ m _ hm hkinds, hrun⟩

end PatternPass

end TensorGraph
