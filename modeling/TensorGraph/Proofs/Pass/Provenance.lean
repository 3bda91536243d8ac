import TensorGraph.Proofs.Attention.Provenance
import TensorGraph.Proofs.Pass.Balance
import TensorGraph.Proofs.Pass.FixedPoint
import TensorGraph.Proofs.Pass.LoweringSources
import TensorGraph.Proofs.Pass.Sources

/-! # Provenance of annotations

When a rewrite is done, every annotation of what it released is still to be found on what it
inserted. This holds of chains of transposes and of attention. The other rewrites overlook some of
the nodes that may be released with their match, and then the keys of these nodes are lost exactly
if no source has them.
-/

namespace TensorGraph

open Relation Arena PatternPass

variable {g k : Graph} {root x : NodeId} {m : Match} {p : Plan Body} {done : Commit}

namespace PatternPass

variable {q : PatternPass}

theorem commitMatch_eq_iff (e : q.rewrite g m = .ok p) :
    q.commitMatch g m = (k, .ok (some done)) ↔
      p.isEmpty = false ∧ p.Accepted g ∧ (k, done) = g.apply p := by
  rw [← commit_eq_ok_iff, commitMatch, e]
  dsimp only
  cases p.isEmpty with
  | true => simp
  | false =>
    cases g.commit p with
    | error f => simp
    | ok result => simp [Prod.ext_iff, eq_comm]

theorem visitMatch_eq_residue (hpin : g.Pinnable m.nodes)
    (e : q.rewrite (g.pinned m.nodes) m = .ok p)
    (hcommit : q.commitMatch (g.pinned m.nodes) m = (k, .ok (some done))) :
    (q.visitMatch g root m).1 = residue (g.pinned m.nodes) m.nodes p := by
  have hpinned : pinAll g m.nodes = .ok (g.pinned m.nodes) :=
    (pinAll_eq_ok_iff m.nodup_nodes).mpr ⟨hpin, rfl⟩
  obtain ⟨-, -, hdone⟩ := (commitMatch_eq_iff e).mp hcommit
  simp only [visitMatch, hpinned, hcommit, residue, ← hdone]
  split
  · rename_i he
    cases he
  all_goals rfl

end PatternPass

/-- The rewrites that put new operations in the place of what they match. -/
inductive Renewal where
  | transposes
  | reshapes
  | folding
  | bias
  | quantizedBias
  | unique
deriving DecidableEq

namespace Renewal

variable {r : Renewal}

def pass : Renewal → PatternPass
  | transposes => Transpose.collapseChain
  | reshapes => Reshape.collapseChain
  | folding => ConstantFolding.pass
  | bias => BiasFusion.plain
  | quantizedBias => BiasFusion.quantized
  | unique => UniqueLowering.pass

def sources (r : Renewal) (m : Match) : List NodeId :=
  match r with
  | reshapes => [m.root.node]
  | _ => m.nodes

/-- What may be released without being a source: the inner reshape, all that a folded operation
depends on, a bias that is flattened, all that a lowered node depends on if its input is not kept. -/
def Overlooks (r : Renewal) (g : Graph) (m : Match) (x : NodeId) : Prop :=
  match r with
  | transposes => False
  | reshapes => x ∈ m.nodes ∧ x ≠ m.root.node
  | folding => TransGen g.Reads m.root.node x
  | bias => ∃ b, m.value? 3 = some b ∧ BiasFusion.Flattened g b ∧ ReflTransGen g.Reads b.node x
  | quantizedBias =>
    ∃ b, m.value? 5 = some b ∧ BiasFusion.Flattened g b ∧ ReflTransGen g.Reads b.node x
  | unique => TransGen g.Reads m.root.node x ∧ ¬ UniqueLowering.KeepsInput g m.root.node

theorem overlooks_pinned {ids : List NodeId} :
    r.Overlooks (g.pinned ids) m x ↔ r.Overlooks g m x := by
  have hreads : (g.pinned ids).Reads = g.Reads := reads_congr bare?_pinned
  have hinfer : (g.pinned ids).infer = g.infer := by
    funext op specs
    rw [infer, infer, table_pinned]
  simp only [Overlooks, BiasFusion.Flattened, UniqueLowering.KeepsInput, UniqueLowering.IsSingle,
    hreads, hinfer, node?_pinned, uses_of_node? node?_pinned, spec?_congr bare?_pinned]

theorem accounts {a : Graph} (ha : a.WellFormed) (hnode : a.node? = g.node?)
    (hm : r.pass.pattern.matchNode g root = some m) (e : r.pass.rewrite a m = .ok p)
    (hp : p.Accepted a) (hlive : ∃ y ∈ (a.rewire p).2, (residue a m.nodes p).contains y = true) :
    Accounts a root m.nodes p (r.sources m) (r.Overlooks a m) := by
  obtain rfl : root = m.root.node := by
    obtain ⟨bs, -, rfl⟩ := Pattern.matchNode_eq_some hm
    rfl
  cases r with
  | transposes => exact Transpose.accounts ha hnode hm e hp hlive
  | reshapes => exact Reshape.accounts ha hnode hm e hp hlive
  | folding => exact ConstantFolding.accounts ha hm e hp hlive
  | bias =>
    obtain ⟨b, hb, h⟩ := BiasFusion.accounts_plain ha hnode hm e hp hlive
    exact h.mono (fun _ => .rfl) fun x hx => .inr ⟨b, hb, hx⟩
  | quantizedBias =>
    obtain ⟨b, hb, h⟩ := BiasFusion.accounts_quantized ha hnode hm e hp hlive
    exact h.mono (fun _ => .rfl) fun x hx => .inr ⟨b, hb, hx⟩
  | unique => exact UniqueLowering.accounts ha hnode hm e hp hlive

/-- A visit that commits a rewrite passes on the keys of the sources. -/
theorem retains (hg : g.WellFormed) (hm : r.pass.matchAt? g root = some m)
    (e : r.pass.rewrite (g.pinned m.nodes) m = .ok p)
    (hcommit : r.pass.commitMatch (g.pinned m.nodes) m = (k, .ok (some done)))
    (hlive : ∃ y ∈ done.inserted, (r.pass.visitMatch g root m).1.contains y = true) :
    (∀ key, (r.pass.visitMatch g root m).1.Retains done.inserted key ↔
        ∃ s ∈ r.sources m, g.Carries s key) ∧
      ∀ x key, ((g.pinned m.nodes).rewire p).1.Carries x key →
        ¬ (r.pass.visitMatch g root m).1.contains x = true →
        (r.pass.visitMatch g root m).1.Retains done.inserted key ∨ r.Overlooks g m x := by
  obtain ⟨-, hp, hresult⟩ := (commitMatch_eq_iff e).mp hcommit
  have hdone : done.inserted = ((g.pinned m.nodes).rewire p).2 := by
    rw [← inserted_apply, ← hresult]
  have hcontains := contains_of_matchAt? hm
  have ha := hg.pinned hcontains
  have hpin : g.Pinnable m.nodes := by
    by_contra hnot
    have hsat := (Visit.saturated_iff (v := ⟨root, m, g⟩) hcontains).mpr hnot
    have hvisit : r.pass.visitMatch g root m = (g, .error .overflow) :=
      visitMatch_saturated hcontains hsat
    obtain ⟨y, hy, hgy⟩ := hlive
    rw [hvisit, ← contains_pinned (a := g)] at hgy
    exact (rewired_rewire ha hp).fresh y (hdone ▸ hy) hgy
  rw [visitMatch_eq_residue hpin e hcommit, hdone] at hlive ⊢
  obtain ⟨hiff, hgone⟩ := (accounts ha node?_pinned (matchNode_of_matchAt? hm) e hp hlive).retains
    hlive
  constructor
  · intro key
    simp only [Carries, node?_pinned] at hiff
    exact hiff key
  · intro x key hkey hx
    exact (hgone x key hkey hx).imp_right overlooks_pinned.mp

end Renewal

/-- What rewrites and fusions keep of the annotations of the nodes that they release: the keys of
the sources of a rewrite, and with a fusion everything. -/
theorem annotations_retained (hg : g.WellFormed) :
    (∀ (r : Renewal) root m p k done, r.pass.matchAt? g root = some m →
      r.pass.rewrite (g.pinned m.nodes) m = .ok p →
      r.pass.commitMatch (g.pinned m.nodes) m = (k, .ok (some done)) →
      (∃ y ∈ done.inserted, (r.pass.visitMatch g root m).1.contains y = true) →
      (∀ key, (r.pass.visitMatch g root m).1.Retains done.inserted key ↔
          ∃ s ∈ r.sources m, g.Carries s key) ∧
        ∀ x key, ((g.pinned m.nodes).rewire p).1.Carries x key →
          ¬ (r.pass.visitMatch g root m).1.contains x = true →
          (r.pass.visitMatch g root m).1.Retains done.inserted key ∨ r.Overlooks g m x) ∧
    ∀ (c : Attention.Config) i h done, Attention.fusePermitted c g i = .ok (some (h, done)) →
      (∃ y ∈ done.inserted, h.contains y = true) →
      ∀ x key, g.Carries x key → ¬ h.contains x = true → h.Retains done.inserted key := by
  constructor
  · intro r root m p k done hm e hcommit hlive
    exact Renewal.retains hg hm e hcommit hlive
  · intro c i h done e hlive x key hkey hgone
    exact Attention.retains_fusePermitted hg e hlive hkey hgone

/-! ### A key that is lost and one that is kept -/

namespace Renewal

open Pipeline (slotOf first reader f32)

/-- Two reshapes in a row, each with an annotation of its own. -/
def restacked : Graph where
  slots := #[
    slotOf (Primitive.parameter (f32 [2, 3])) [] [⟨f32 [2, 3], [reader 1 0]⟩],
    ⟨0, 0, some ⟨Primitive.reshape [3, 2] false, [first 0], [⟨f32 [3, 2], [reader 2 0]⟩], "",
      Annotations.empty.insert "inner" "1"⟩⟩,
    ⟨0, 0, some ⟨Primitive.reshape [6] false, [first 1], [⟨f32 [6], [reader 3 0]⟩], "",
      Annotations.empty.insert "outer" "2"⟩⟩,
    slotOf Primitive.result [first 2] []]
  free := []
  parameters := [⟨0, 0⟩]
  results := [⟨3, 0⟩]
  live := 4
  version := 0
  table := .standard

theorem wellFormed_restacked : restacked.WellFormed :=
  Arena.wellFormed_of_validate (by cbv) (by decide) (by decide) (by decide)
    (fun _ h => absurd h List.not_mem_nil) (by cbv)

def chain : Match := chainMatch ⟨2, 0⟩ (first 1) (first 0)

def flatten : Plan Body where
  staged := [⟨Primitive.reshape [6] false, [.graph (first 0)], [f32 [6]], "", .empty⟩]
  replacements := [(first 2, .staged 0 0)]
  sources := [⟨2, 0⟩]

theorem matchAt?_restacked : reshapes.pass.matchAt? restacked ⟨2, 0⟩ = some chain := by rfl

theorem rewrite_restacked :
    reshapes.pass.rewrite (restacked.pinned chain.nodes) chain = .ok flatten := by rfl

theorem inserted_restacked : ((restacked.pinned chain.nodes).rewire flatten).2 = [⟨4, 0⟩] := by
  cbv

theorem commitMatch_restacked :
    reshapes.pass.commitMatch (restacked.pinned chain.nodes) chain =
      (((restacked.pinned chain.nodes).apply flatten).1,
        .ok (some ((restacked.pinned chain.nodes).apply flatten).2)) :=
  (commitMatch_eq_iff rewrite_restacked).mpr ⟨rfl, Plan.check_eq_ok_iff.mp (by cbv), rfl⟩

theorem visitMatch_restacked : (reshapes.pass.visitMatch restacked ⟨2, 0⟩ chain).1 =
    residue (restacked.pinned chain.nodes) chain.nodes flatten :=
  visitMatch_eq_residue (by decide) rewrite_restacked commitMatch_restacked

theorem exists_live_restacked : ∃ y ∈ ((restacked.pinned chain.nodes).apply flatten).2.inserted,
    (reshapes.pass.visitMatch restacked ⟨2, 0⟩ chain).1.contains y = true := by
  rw [inserted_apply, inserted_restacked, visitMatch_restacked]
  exact ⟨_, List.mem_singleton_self _, by cbv⟩

/-- Attention with an annotation at the first product. -/
def marked : Graph := Arena.reached .standard [
  .addParameter "query" (f32 [2, 4]),
  .addParameter "keys" (f32 [3, 4]),
  .addParameter "values" (f32 [3, 4]),
  .addNode (Primitive.matMul false true) [first 0, first 1],
  .addNode (Primitive.softmax (-1)) [first 3],
  .addNode (Primitive.matMul false false) [first 4, first 2],
  .addResult (first 5),
  .annotate ⟨3, 0⟩ "layer" "1"]

def island : Attention.Island := ⟨.plain, ⟨5, 0⟩, [⟨3, 0⟩, ⟨4, 0⟩, ⟨5, 0⟩], []⟩

/-- The key of the outer reshape is kept, and so is that of a product in attention. -/
theorem annotations_retained_restacked :
    (reshapes.pass.visitMatch restacked ⟨2, 0⟩ chain).1.contains ⟨2, 0⟩ = false ∧
      (reshapes.pass.visitMatch restacked ⟨2, 0⟩ chain).1.Retains [⟨4, 0⟩] "outer" ∧
      ∃ h done, Attention.fusePermitted .standard marked island = .ok (some (h, done)) ∧
        h.contains ⟨3, 0⟩ = false ∧ h.Retains done.inserted "layer" := by
  have hgone : (reshapes.pass.visitMatch restacked ⟨2, 0⟩ chain).1.contains ⟨2, 0⟩ = false := by
    rw [visitMatch_restacked]
    cbv
  have hrewrite := (annotations_retained wellFormed_restacked).1 reshapes ⟨2, 0⟩ chain flatten _ _
    matchAt?_restacked rewrite_restacked commitMatch_restacked exists_live_restacked
  have hkept := (hrewrite.2 ⟨2, 0⟩ "outer" ⟨_, by cbv, by decide⟩ (by simp [hgone])).resolve_right
    fun hover => hover.2 rfl
  rw [inserted_apply, inserted_restacked] at hkept
  refine ⟨hgone, hkept, ?_⟩
  have hfuses : (Attention.fusePermitted .standard marked island).toOption.map
      (Option.any fun x => x.2.inserted.any x.1.contains && !x.1.contains ⟨3, 0⟩) =
        some true := by cbv
  obtain ⟨fused, e, hfused⟩ := map_toOption_eq_some_iff.mp hfuses
  obtain ⟨⟨h, done⟩, rfl, hfused⟩ := (Option.any_eq_true _ _).mp hfused
  obtain ⟨hlive, hgone⟩ := Bool.and_eq_true_iff.mp hfused
  have hgone : h.contains ⟨3, 0⟩ = false := by simpa using hgone
  have hmarked : marked.WellFormed := Arena.wellFormed_reached _ _
  exact ⟨h, done, e, hgone, (annotations_retained hmarked).2 .standard island h done e
    (List.any_eq_true.mp hlive) ⟨3, 0⟩ "layer" ⟨_, rfl, by decide⟩ (by simp [hgone])⟩

/-- The key of the inner reshape is lost with it. -/
theorem annotation_lost :
    restacked.WellFormed ∧ reshapes.pass.matchAt? restacked ⟨2, 0⟩ = some chain ∧
      reshapes.pass.rewrite (restacked.pinned chain.nodes) chain = .ok flatten ∧
      ∃ k done, reshapes.pass.commitMatch (restacked.pinned chain.nodes) chain =
          (k, .ok (some done)) ∧
        (∃ y ∈ done.inserted,
          (reshapes.pass.visitMatch restacked ⟨2, 0⟩ chain).1.contains y = true) ∧
        restacked.Carries ⟨1, 0⟩ "inner" ∧
        ¬ (reshapes.pass.visitMatch restacked ⟨2, 0⟩ chain).1.contains ⟨1, 0⟩ = true ∧
        ¬ (reshapes.pass.visitMatch restacked ⟨2, 0⟩ chain).1.Retains done.inserted "inner" := by
  refine ⟨wellFormed_restacked, matchAt?_restacked, rewrite_restacked, _, _,
    commitMatch_restacked, exists_live_restacked, ⟨_, rfl, by decide⟩, ?_, ?_⟩
  · rw [visitMatch_restacked, Bool.not_eq_true]
    cbv
  · rw [(retains wellFormed_restacked matchAt?_restacked rewrite_restacked commitMatch_restacked
      exists_live_restacked).1]
    rintro ⟨s, hs, n, hn, hkey⟩
    obtain rfl := List.mem_singleton.mp hs
    obtain rfl := Option.some.inj hn
    revert hkey
    decide

end Renewal

end TensorGraph
