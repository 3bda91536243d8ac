import TensorGraph.Proofs.Pass.Progress
import TensorGraph.Proofs.Pattern.Kinds

/-! # Runs that descend

A pass whose rewrites are drafts that make progress does not fail on a ready graph, unless a product
of sizes leaves the range of counts. It leaves the graph ready, and the measure goes down if the pass
reports a change.
-/

namespace TensorGraph

open Relation Arena

structure Arena.Regular (g : Graph) : Prop where
  wellFormed : g.WellFormed
  typed : g.Typed
  table : g.table = .standard

structure Arena.Ready (g : Graph) : Prop where
  regular : g.Regular
  unpinned : g.Unpinned

/-- Either all that is staged weighs less than the root, or a single change of layout is staged for
the root and for another one that it depends on. -/
def Plan.Progresses (c : Site) (p : Plan Body) : Prop := ∃ k, c.graph.kind? c.root = some k ∧
  ((0 < k.weight ∧ ∀ l, c.kinds l → l.weight < k.weight) ∨
    k.isLayout = true ∧ (∀ l, c.kinds l → l.isLayout = true) ∧ p.staged.length ≤ 1 ∧
      TransGen c.graph.Reads c.root c.via)

/-- The plan takes the place of the root, and the measure goes down by that. -/
structure Plan.Advances (c : Site) (p : Plan Body) : Prop where
  draft : p.Draft c
  covers : p.Covers c
  progress : p.Progresses c

theorem Plan.covers_of_single {c : Site} {p : Plan Body} {n : Node Body} {t : ElementType}
    {x : Operand} (hn : c.graph.node? c.root = some n) (ht : n.specs.map Spec.elementType = [t])
    (hmem : (c.root.output 0, x) ∈ p.replacements) : p.Covers c := by
  intro port hport
  obtain ⟨u, hu⟩ := List.exists_mem_of_ne_nil _ hport
  obtain ⟨m, hm, hlt⟩ := hasOutput_iff.mp (hasOutput_of_mem_uses hu)
  obtain rfl := Option.some.inj (hn.symm.trans hm)
  have hlen : n.outputs.length = 1 := by simpa [Node.specs] using congrArg List.length ht
  obtain rfl : port = 0 := Nat.lt_one_iff.mp (hlen ▸ hlt)
  exact ⟨_, hmem, rfl⟩

/-- The steps of a rewrite, taken from the empty plan. -/
theorem Plan.advances_of_toPlan {c : Site} {p : Plan Body} {s : Staging Unit}
    (e : s.toPlan = .ok p) (h : Staging.Ensures c .empty s fun _ q => q.Covers c ∧ q.Progresses c) :
    p.Advances c := by
  obtain ⟨hdraft, hcovers, hprogress⟩ := h.toPlan e
  exact ⟨hdraft, hcovers, hprogress⟩

def PatternPass.Overflows (p : PatternPass) (g : Graph) : Prop :=
  ∃ root m, p.matchAt? g root = some m ∧ p.rewrite (g.pinned m.nodes) m = .error .overflow

/-- The run succeeds, and the measure goes down if it reports a change; or it stops at an overflow
in the graph that it has come to. -/
def Graph.Descends (g : Graph) (overflows : Graph → Prop) (r : Run Outcome) : Prop :=
  (∃ h o, r = (h, .ok o) ∧ h.Ready ∧ h.measure ≤ g.measure ∧
    (o.changed = true → h.measure < g.measure)) ∨
  ∃ h, r = (h, .error .overflow) ∧ h.Ready ∧ overflows h

/-- The pass keeps graphs ready and fails on them by an overflow only. -/
def Pass.Descending (p : Pass) (overflows : Graph → Prop) : Prop :=
  ∀ g, g.Ready → Graph.Descends g overflows (p.run g)

namespace PatternPass

variable {p : PatternPass} {g h : Graph} {root : NodeId} {m : Match}

/-- Whatever a rewrite of the pass makes of a match, it advances at the root of the match. The
rewrite may see the graph under other pins than the match did. -/
structure Reducing (p : PatternPass) : Prop where
  wraps : p.pattern.root.Wraps fun k => k.isAnchor = false
  advances : ∀ (g h : Graph) root m plan, h.Regular → h.node? = g.node? →
    p.pattern.matchNode g root = some m → p.rewrite h m = .ok plan →
    root ∈ m.nodes ∧ ∃ c : Site, c.graph = h ∧ c.root = root ∧ plan.Advances c

theorem regular_pinned (hg : g.Regular) {ids : List NodeId}
    (hlive : ∀ id ∈ ids, g.contains id = true) : (g.pinned ids).Regular where
  wellFormed := hg.wellFormed.pinned hlive
  typed := hg.typed.of_part (hg.wellFormed.pinned hlive).linked
    fun _ _ => congrFun bare?_pinned _
  table := table_pinned.trans hg.table

theorem measure_pinned (hg : g.WellFormed) {ids : List NodeId}
    (hlive : ∀ id ∈ ids, g.contains id = true) : (g.pinned ids).measure ≤ g.measure := by
  have hpart : g.Part (g.pinned ids) :=
    ⟨hg.pinned hlive, fun _ _ => congrFun bare?_pinned _, table_pinned⟩
  exact hpart.measure_le hg.linked

/-- What is left after a plan that advances. -/
theorem Replaced.ready {plan : Plan Body} {c : Site} {i : Graph} {ids : List NodeId}
    (hr : Replaced g h m plan i ids) (hc : c.graph = g.pinned m.nodes) (hreg : c.graph.Regular)
    (hplan : plan.Advances c) : h.Regular := by
  have hrewired := hr.rewired
  rw [← hc] at hrewired
  have hacc := hplan.draft.accepted hreg.wellFormed
  have htyped := hreg.typed.rewired hreg.wellFormed.linked hacc hplan.draft.typed hrewired
  exact ⟨hr.part.wellFormed, htyped.of_part hr.part.wellFormed.linked hr.part.bare,
    hr.part.table.trans (hrewired.table.trans hreg.table)⟩

theorem Replaced.measure_lt {plan : Plan Body} {c : Site} {i : Graph} {ids : List NodeId}
    (hr : Replaced g h m plan i ids) (hc : c.graph = g.pinned m.nodes) (hreg : c.graph.Regular)
    (hplan : plan.Advances c) (hmem : c.root ∈ m.nodes)
    (hanchor : ∀ k, c.graph.kind? c.root = some k → k.isAnchor = false) :
    h.measure < c.graph.measure := by
  have hrewired := hr.rewired
  rw [← hc] at hrewired
  obtain ⟨k, hk, hprogress⟩ := hplan.progress
  have hroot := contains_of_kind? hk
  have hkind : g.kind? c.root = c.graph.kind? c.root := by
    rw [hc, kind?, kind?, node?_pinned]
  have hgone : ¬ h.contains c.root = true := by
    refine hr.gone _ hmem (fun l hl => hanchor l (hkind ▸ hl)) fun v hv => ?_
    exact hplan.draft.uses_root hplan.covers hreg.wellFormed hroot hrewired hv
  have hh := hplan.draft.rewritten hreg.wellFormed hrewired hr.part hgone
  rcases hprogress with ⟨hpos, hlt⟩ | ⟨hlayout, hall, hlen, hvia⟩
  · exact hh.measure_lt hk hpos hlt
  · have hnot : c.via ∉ ids := fun hm => by
      refine hrewired.fresh _ hm (contains_of_reflTransGen hreg.wellFormed.linked hroot c.reaches)
    exact hh.measure_lt_of_layout hreg.wellFormed (hrewired.length ▸ hlen) hvia hnot hk hlayout hall

theorem Reducing.visitMatch (hp : p.Reducing) (hg : g.Ready) (hm : p.matchAt? g root = some m) :
    Graph.Descends g p.Overflows (p.visitMatch g root m) := by
  have hwf := hg.regular.wellFormed
  have hnode := p.matchNode_of_matchAt? hm
  have hkind {id : NodeId} (hid : id ∈ m.nodes) := p.pattern.kind?_of_mem_nodes hp.wraps hnode hid
  have hlive : ∀ id ∈ m.nodes, g.contains id = true := by
    intro id hid
    obtain ⟨k, hk, -⟩ := hkind hid
    exact contains_of_kind? hk
  have hpinned := regular_pinned hg.regular hlive
  have hadvances {plan : Plan Body} (e : p.rewrite (g.pinned m.nodes) m = .ok plan) :=
    hp.advances g _ root m plan hpinned node?_pinned hnode e
  have hacc (plan : Plan Body) (e : p.rewrite (g.pinned m.nodes) m = .ok plan) :
      plan.Accepted (g.pinned m.nodes) := by
    obtain ⟨-, c, hc, -, hplan⟩ := hadvances e
    exact hc ▸ hplan.draft.accepted (hc ▸ hpinned.wellFormed)
  by_cases hfits : p.rewrite (g.pinned m.nodes) m = .error .overflow
  · exact .inr ⟨g, visitMatch_of_overflow (pinnable_of_unpinned hg.unpinned hlive) hfits, hg, root, m,
      hm, hfits⟩
  left
  obtain ⟨h, o, e, hunpinned, ⟨ho, hpart⟩ | ⟨ho, plan, i, ids, hplan, hr⟩⟩ :=
    visitMatch_eq_ok hwf hg.unpinned hlive hacc hfits
  · have htyped := hg.regular.typed.of_part hpart.wellFormed.linked hpart.bare
    refine ⟨h, o, e, ⟨⟨hpart.wellFormed, htyped, hpart.table.trans hg.regular.table⟩, hunpinned⟩,
      hpart.measure_le hwf.linked, fun ho' => ?_⟩
    rw [ho] at ho'
    cases ho'
  · obtain ⟨hmem, c, hc, rfl, hplan⟩ := hadvances hplan
    have hreg : c.graph.Regular := hc ▸ hpinned
    obtain ⟨k, hk, hanchor⟩ := hkind hmem
    have hlt := hr.measure_lt hc hreg hplan hmem fun l hl => by
      rw [hc, kind?, node?_pinned, ← kind?, hk] at hl
      exact Option.some.inj hl ▸ hanchor
    rw [hc] at hlt
    have hlt := hlt.trans_le (measure_pinned hwf hlive)
    exact ⟨h, o, e, ⟨hr.ready hc hreg hplan, hunpinned⟩, hlt.le, fun _ => hlt⟩

theorem Reducing.visitAll (hp : p.Reducing) (hg : g.Ready) (roots : List NodeId) (o : Outcome) :
    (∃ h o', p.visitAll roots g o = (h, .ok o') ∧ h.Ready ∧ h.measure ≤ g.measure ∧
      (o'.changed = true → o.changed = true ∨ h.measure < g.measure)) ∨
    ∃ h, p.visitAll roots g o = (h, .error .overflow) ∧ h.Ready ∧ p.Overflows h := by
  induction roots generalizing g o with
  | nil => exact .inl ⟨g, o, rfl, hg, le_rfl, .inl⟩
  | cons root roots ih =>
    unfold PatternPass.visitAll
    split
    · exact ih hg o
    · rename_i m hm
      rcases hp.visitMatch hg hm with ⟨h, seen, e, hh, hle, hlt⟩ | ⟨h, e, hh, hover⟩
      · rw [e]
        rcases ih hh (o.merge seen) with ⟨i, o', e', hi, hle', hlt'⟩ | hover
        · refine .inl ⟨i, o', e', hi, hle'.trans hle, fun ho => ?_⟩
          rcases hlt' ho with hmerge | hless
          · exact (Bool.or_eq_true_iff.mp hmerge).imp_right fun hseen => hle'.trans_lt (hlt hseen)
          · exact .inr (hless.trans_le hle)
        · exact .inr hover
      · rw [e]
        exact .inr ⟨h, rfl, hh, hover⟩

theorem Reducing.descending (hp : p.Reducing) : p.toPass.Descending p.Overflows := by
  intro g hg
  obtain ⟨order, horder, -⟩ := hg.regular.wellFormed.topologicalOrder_eq
  have hrun : p.toPass.run g = p.visitAll order g .none := by simp only [toPass, run, horder]
  rw [hrun]
  rcases hp.visitAll hg order .none with ⟨h, o, e, hh, hle, hlt⟩ | hover
  · exact .inl ⟨h, o, e, hh, hle, fun ho => (hlt ho).resolve_left Bool.false_ne_true⟩
  · exact .inr hover

end PatternPass

theorem Pass.Descending.mono {p : Pass} {overflows overflows' : Graph → Prop}
    (hp : p.Descending overflows) (h : ∀ g, overflows g → overflows' g) :
    p.Descending overflows' := fun g hg =>
  (hp g hg).imp_right fun ⟨i, e, hi, hover⟩ => ⟨i, e, hi, h i hover⟩

theorem Pass.Descending.both {p q : Pass} {overflows overflows' : Graph → Prop}
    (hp : p.Descending overflows) (hq : q.Descending overflows') (name : String) :
    (both name p q).Descending fun g => overflows g ∨ overflows' g := by
  intro g hg
  rcases hp g hg with ⟨h, a, ha, hh, hle, hlt⟩ | ⟨h, ha, hh, hover⟩
  · rcases hq h hh with ⟨i, b, hb, hi, hle', hlt'⟩ | ⟨i, hb, hi, hover⟩
    · refine .inl ⟨i, a.merge b, ?_, hi, hle'.trans hle, fun ho => ?_⟩
      · simp only [Pass.both, ha, hb]
      · rcases Bool.or_eq_true_iff.mp ho with ho | ho
        · exact hle'.trans_lt (hlt ho)
        · exact (hlt' ho).trans_le hle
    · exact .inr ⟨i, by simp only [Pass.both, ha, hb], hi, .inr hover⟩
  · exact .inr ⟨h, by simp only [Pass.both, ha], hh, .inl hover⟩

end TensorGraph
