import TensorGraph.Proofs.Pass.Descent
import TensorGraph.Proofs.Pass.Rewrites

/-! # Changes of layout

Dropping a change of layout that changes nothing, or joining two in a row, makes progress.
-/

namespace TensorGraph

open Relation Arena Staging

variable {h : Graph} {root : NodeId} {n : Node Body} {v : Value} {p : Plan Body}

theorem Kind.mem_of_isLayout {k : Kind} (hk : k.isLayout = true) :
    k ∈ [Kind.transpose, .reshape, .squeeze, .unsqueeze, .reduceMax] := by
  cases k <;> first | decide | cases hk

theorem kind?_of_node? (hn : h.node? root = some n) : h.kind? root = some n.kind :=
  congrArg (Option.map Node.kind) hn

theorem ensures_layout {c : Site} {op : Operation Body} {t : ElementType}
    (hop : op.kind.isLayout = true) (hkind : c.kinds op.kind) (hv : c.graph.type? v = some t)
    (habove : (Operand.graph v).Above c) :
    Ensures c p (makeValue c.graph op [.graph v]) fun x q =>
      x.Above c ∧ q.type? c.graph x = some t ∧ q.staged.length = p.staged.length + 1 := by
  refine (ensures_makeValue hkind ?_).mono ?_
  · exact List.forall_mem_singleton.mpr habove
  · rintro x q ⟨hx, ⟨outs, htypes, hport⟩, hlen⟩
    obtain ⟨u, hins, rfl⟩ := htypes.keep (Kind.mem_of_isLayout hop)
    obtain rfl : t = u := Option.some.inj (hv.symm.trans (List.cons.inj hins).1)
    exact ⟨hx, hport, hlen⟩

/-! ### One change of layout -/

/-- A change of layout in a regular graph. -/
structure Change (h : Graph) where
  regular : h.Regular
  root : NodeId
  source : Value
  node : Node Body
  node?_root : h.node? root = some node
  layout : node.kind.isLayout = true
  inputs : node.inputs = [source]

namespace Change

variable (x : Change h)

def site : Site := ⟨h, x.root, x.root, fun _ => False, x.regular.table, .refl⟩

theorem types : ∃ t, h.type? x.source = some t ∧ h.type? (x.root.output 0) = some t ∧
    x.node.specs.map Spec.elementType = [t] := by
  obtain ⟨t, hv, hspecs⟩ :=
    x.regular.typed.keep x.node?_root x.inputs (Kind.mem_of_isLayout x.layout)
  exact ⟨t, hv, by rw [type?_of_node? x.node?_root, hspecs]; rfl, hspecs⟩

theorem reads : h.Reads x.root x.source.node :=
  reads_of_input x.node?_root (x.inputs ▸ List.mem_singleton_self x.source)

theorem ensures_drop : Ensures x.site p (replace (x.root.output 0) x.source) fun _ q =>
    q.Covers x.site ∧ q.Progresses x.site := by
  obtain ⟨t, hv, hold, hspecs⟩ := x.types
  have habove : (Operand.graph x.source).Above x.site := TransGen.single x.reads
  refine (ensures_replace rfl habove hold hv).mono fun _ q hq => ?_
  refine ⟨Plan.covers_of_single x.node?_root hspecs hq.2, x.node.kind,
    kind?_of_node? x.node?_root, .inl ⟨?_, fun _ hl => hl.elim⟩⟩
  rw [Kind.weight_of_isLayout x.layout]
  exact Nat.one_pos

theorem reducing {p : PatternPass} {k : Kind} {guard : Guard} {size : Nat}
    (hp : p.pattern = ⟨.wrap 1 [k] [.input 0 .always] guard, size⟩) (hk : k.isLayout = true)
    (hadvances : ∀ (h : Graph) (x : Change h) plan,
      p.rewrite h ⟨x.root.output 0, [⟨1, x.root.output 0, true⟩, ⟨0, x.source, false⟩]⟩ =
        .ok plan → plan.Advances x.site) : p.Reducing where
  wraps := by
    rw [hp]
    refine ⟨List.forall_mem_singleton.mpr ?_, trivial, trivial⟩
    cases k <;> first | rfl | cases hk
  advances g h root m plan hh hnode hm e := by
    rw [hp] at hm
    obtain ⟨n, v, hn, hkind, hin, -, rfl⟩ := Pattern.matchNode_unary hm
    rw [← hnode] at hn
    let x : Change h := ⟨hh, root, v, n, hn, List.mem_singleton.mp hkind ▸ hk, hin⟩
    exact ⟨Match.mem_nodes (b := ⟨1, root.output 0, true⟩) List.mem_cons_self rfl, x.site, rfl,
      rfl, hadvances h x plan e⟩

end Change

/-! ### Two in a row -/

structure Chain (h : Graph) extends outer : Change h where
  inner : Change h
  source_node : source.node = inner.root

namespace Chain

variable (x : Chain h)

theorem reads_inner : h.Reads x.root x.inner.root := x.source_node ▸ x.outer.reads

def site : Site :=
  ⟨h, x.root, x.inner.root, fun k => k.isLayout = true, x.regular.table, .single x.reads_inner⟩

theorem above_source : (Operand.graph x.inner.source).Above x.site :=
  TransGen.single x.inner.reads

/-- The type of all three values of a chain. -/
theorem types : ∃ t, h.type? x.inner.source = some t ∧ h.type? (x.root.output 0) = some t := by
  obtain ⟨t, hw, hroot, -⟩ := x.outer.types
  obtain ⟨t', hv, -, hspecs⟩ := x.inner.types
  have hport : h.type? x.source = [t'][x.source.port]? := by
    rw [← hspecs, ← type?_of_node? x.inner.node?_root x.source.port, ← x.source_node]
    rfl
  obtain rfl : t' = t := by
    rw [hw, List.getElem?_singleton] at hport
    split at hport
    · exact (Option.some.inj hport).symm
    · cases hport
  exact ⟨t', hv, hroot⟩

theorem ensures_join {y : Operand} (hy : y.Above x.site) {t : ElementType}
    (hyt : p.type? h y = some t) (ht : h.type? (x.root.output 0) = some t)
    (hlen : p.staged.length ≤ 1) :
    Ensures x.site p (replace (x.root.output 0) y) fun _ q =>
      q.Covers x.site ∧ q.Progresses x.site := by
  obtain ⟨_, -, -, hspecs⟩ := x.outer.types
  refine (ensures_replace rfl hy ht hyt).mono fun _ q ⟨hstaged, hmem⟩ => ?_
  refine ⟨Plan.covers_of_single x.node?_root hspecs hmem, x.node.kind,
    kind?_of_node? x.node?_root, .inr ⟨x.layout, fun _ hl => hl, ?_, ?_⟩⟩
  · rw [hstaged]
    exact hlen
  · exact .single x.reads_inner

theorem reducing {p : PatternPass} {k : Kind} {guard : Guard} {size : Nat}
    (hp : p.pattern =
      ⟨.wrap 2 [k] [.wrap 1 [k] [.input 0 .always] .always] guard, size⟩)
    (hk : k.isLayout = true)
    (hadvances : ∀ (h : Graph) (x : Chain h) plan,
      p.rewrite h ⟨x.root.output 0, [⟨2, x.root.output 0, true⟩, ⟨1, x.source, true⟩,
        ⟨0, x.inner.source, false⟩]⟩ = .ok plan → plan.Advances x.site) : p.Reducing where
  wraps := by
    have hanchor : ∀ l ∈ [k], l.isAnchor = false := by
      refine List.forall_mem_singleton.mpr ?_
      cases k <;> first | rfl | cases hk
    rw [hp]
    exact ⟨hanchor, ⟨hanchor, trivial, trivial⟩, trivial⟩
  advances g h root m plan hh hnode hm e := by
    rw [hp] at hm
    obtain ⟨n, w, n', v, hn, hkind, hin, hn', hkind', hin', -, rfl⟩ := Pattern.matchNode_chain hm
    rw [← hnode] at hn hn'
    let x : Chain h :=
      { regular := hh, root, source := w, node := n, node?_root := hn
        layout := List.mem_singleton.mp hkind ▸ hk, inputs := hin
        inner := ⟨hh, w.node, v, n', hn', List.mem_singleton.mp hkind' ▸ hk, hin'⟩
        source_node := rfl }
    exact ⟨Match.mem_nodes (b := ⟨2, root.output 0, true⟩) List.mem_cons_self rfl, x.site, rfl,
      rfl, hadvances h x plan e⟩

end Chain

/-! ### Transposes -/

namespace Transpose

theorem reducing_eliminateIdentity : eliminateIdentity.Reducing :=
  Change.reducing rfl rfl fun _ x _ e =>
    Plan.advances_of_toPlan (rewrite_change.symm.trans e) x.ensures_drop

theorem reducing_collapseChain : collapseChain.Reducing := by
  refine Chain.reducing rfl rfl fun h x plan e => ?_
  refine Plan.advances_of_toPlan (rewrite_chain.symm.trans e) ?_
  obtain ⟨t, hv, ht⟩ := x.types
  refine .bind (.refl _) ensures_ofOption ?_
  rintro first q - ⟨-, rfl⟩
  refine .bind (.refl _) ensures_ofOption ?_
  rintro second q - ⟨-, rfl⟩
  refine .bind (.refl _) ensures_ofOption ?_
  rintro composed q - ⟨-, rfl⟩
  split
  · exact x.ensures_join x.above_source hv ht (Nat.zero_le 1)
  · refine .bind (.refl _) (ensures_layout rfl rfl hv x.above_source) ?_
    rintro folded q - ⟨hy, hyt, hlen⟩
    refine .bind (.refl _) (ensures_inherit fun id hid => ?_) ?_
    · rcases List.mem_pair.mp hid with rfl | rfl
      · exact x.source_node ▸ contains_of_node? x.inner.node?_root
      · exact contains_of_node? x.node?_root
    · rintro - r hr hstaged
      exact x.ensures_join hy (hr.type? hyt) ht (by rw [hstaged, hlen]; rfl)

theorem descending_canonicalize : canonicalize.Descending fun g =>
    eliminateIdentity.Overflows g ∨ collapseChain.Overflows g :=
  reducing_eliminateIdentity.descending.both reducing_collapseChain.descending _

end Transpose

/-! ### Reshapes -/

namespace Reshape

theorem reducing_eliminateIdentity : eliminateIdentity.Reducing := by
  refine Change.reducing rfl rfl fun h x plan e => ?_
  refine Plan.advances_of_toPlan (rewrite_change.symm.trans e) ?_
  refine .bind (.refl _) ensures_spec ?_
  rintro before q - ⟨-, rfl⟩
  refine .bind (.refl _) ensures_spec ?_
  rintro after q - ⟨-, rfl⟩
  refine .bind (.refl _) ensures_check ?_
  rintro - q - ⟨-, rfl⟩
  exact x.ensures_drop

theorem reducing_collapseChain : collapseChain.Reducing := by
  refine Chain.reducing rfl rfl fun h x plan e => ?_
  refine Plan.advances_of_toPlan (rewrite_chain.symm.trans e) ?_
  obtain ⟨t, hv, ht⟩ := x.types
  refine .bind (.refl _) ensures_ofOption ?_
  rintro target q - ⟨-, rfl⟩
  refine .bind (.refl _) (ensures_layout rfl rfl hv x.above_source) ?_
  rintro folded q - ⟨hy, hyt, hlen⟩
  refine .bind (.refl _) ensures_spec ?_
  rintro direct q - ⟨-, rfl⟩
  refine .bind (.refl _) ensures_spec ?_
  rintro current q - ⟨-, rfl⟩
  refine .bind (.refl _) ensures_check ?_
  rintro - q - ⟨-, rfl⟩
  refine .bind (.refl _) (ensures_inherit ?_) ?_
  · exact List.forall_mem_singleton.mpr (contains_of_node? x.node?_root)
  · rintro - r hr hstaged
    exact x.ensures_join hy (hr.type? hyt) ht (by rw [hstaged, hlen]; rfl)

theorem descending_canonicalize : canonicalize.Descending fun g =>
    eliminateIdentity.Overflows g ∨ collapseChain.Overflows g :=
  reducing_eliminateIdentity.descending.both reducing_collapseChain.descending _

end Reshape

end TensorGraph
