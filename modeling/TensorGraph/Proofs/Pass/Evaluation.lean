import TensorGraph.Proofs.Meaning.Evaluation
import TensorGraph.Proofs.Pass.FixedPoint
import TensorGraph.Proofs.Pass.Rewrites
import TensorGraph.Proofs.Pattern.Inversion

/-! # Passes that keep values

Canonicalization of transposes and reshapes and folding of constants never lose or change a value
that a result receives.
-/

namespace TensorGraph

open Arena

variable {g h : Graph} {env : NodeId → Tensor} {σ : Value → Option Tensor} {t u : Tensor}
variable {x : NodeId} {v w : Value} {n : Node Body} {op : Operation Body} {p : Primitive}
variable {plan q : Plan Body} {port k : Nat}

/-! ### What a run keeps -/

/-- The results receive these values, by an assignment that is grounded. -/
structure Arena.Delivers (g : Graph) (env : NodeId → Tensor) (received : NodeId → Tensor → Prop) :
    Prop where
  wellFormed : g.WellFormed
  table : g.table = .standard
  values : ∃ σ, g.Grounded env σ ∧ ∀ x t, received x t →
    ∃ n, g.bare? x = some n ∧ n.kind = .result ∧ n.inputs.map σ = [some t]

namespace Arena.Delivers

variable {received : NodeId → Tensor → Prop}

theorem of_remains (hg : g.Delivers env received) (hh : h.WellFormed) (hr : g.Remains h) :
    h.Delivers env received := by
  obtain ⟨σ, hσ, hvalues⟩ := hg.values
  refine ⟨hh, hr.table.trans hg.table, σ, hσ.of_part hr.bare, fun x t hx => ?_⟩
  obtain ⟨n, hn, hkind, hinputs⟩ := hvalues x t hx
  obtain ⟨m, hm, rfl⟩ := Option.map_eq_some_iff.mp hn
  have hanchor : m.isAnchor = true := congrArg Kind.isAnchor hkind
  exact ⟨m.bare, (hr.bare x (hr.kept x m hm (.inr hanchor))).trans hn, hkind, hinputs⟩

theorem modifyPins (hg : g.Delivers env received) (hx : g.contains x = true) (f : UInt32 → UInt32) :
    (g.modifyPins x.index f).Delivers env received := by
  have hbare : (g.modifyPins x.index f).bare? = g.bare? := by
    funext y
    rw [bare?, node?_modifyPins, bare?]
  obtain ⟨σ, hσ, hvalues⟩ := hg.values
  refine ⟨hg.wellFormed.modifyPins f hx, hg.table, σ, hσ.of_part fun y _ => congrFun hbare y, ?_⟩
  rwa [hbare]

theorem pin (hg : g.Delivers env received) (e : g.pin x = .ok h) : h.Delivers env received := by
  obtain ⟨⟨hx, -⟩, rfl⟩ := pin_eq_ok_iff.mp e
  exact hg.modifyPins hx _

theorem unpin (hg : g.Delivers env received) (e : g.unpin x = .ok (h, k)) :
    h.Delivers env received := by
  obtain ⟨hx, he⟩ := unpin_eq_ok_iff.mp e
  obtain ⟨rfl, rfl⟩ := Prod.mk.inj he
  have hpins := hg.modifyPins hx dropPin
  have hreleases := releases_release (g.modifyPins x.index dropPin) x
  exact hpins.of_remains (hreleases.wellFormed hpins.wellFormed)
    (hreleases.remains hpins.wellFormed)

theorem apply (hg : g.Delivers env received) (hp : plan.Accepted g)
    (h : ∀ σ, g.Grounded env σ → ∃ ω, plan.Supports σ ω) :
    (g.apply plan).1.Delivers env received := by
  obtain ⟨σ, hσ, hvalues⟩ := hg.values
  obtain ⟨ω, hω⟩ := h σ hσ
  have hr := rewired_rewire hg.wellFormed hp
  have hremains := remains_apply hg.wellFormed hp
  refine ⟨hg.wellFormed.apply hp, hremains.table.trans (hr.table.trans hg.table), _,
    (hr.grounded hg.wellFormed.linked hp hσ hω).of_part hremains.bare, fun x t hx => ?_⟩
  obtain ⟨n, hn, hkind, hinputs⟩ := hvalues x t hx
  refine ⟨_, bare?_apply_of_result hg.wellFormed hp hn hkind, hkind, ?_⟩
  obtain ⟨v, hv, hvt⟩ : ∃ v, n.inputs = [v] ∧ σ v = some t := by
    obtain ⟨v, hv, he⟩ := List.map_eq_singleton_iff.mp hinputs
    exact ⟨v, hv, he⟩
  have hlive := hg.wellFormed.linked.contains_of_input hn (hv ▸ List.mem_singleton_self v)
  rw [hv, List.map_singleton, List.map_singleton, hr.extended_redirect hp hω hlive hvt]

end Arena.Delivers

/-! ### Passes whose rewrites are supported -/

/-- No rewrite of the pass loses a value or changes one. The rewrite may see the graph under other
pins than the match did. -/
def PatternPass.Preserving (p : PatternPass) : Prop :=
  ∀ (g h : Graph) (env : NodeId → Tensor) σ root m plan, h.table = .standard →
    h.Grounded env σ → h.node? = g.node? → p.pattern.matchNode g root = some m →
    p.rewrite h m = .ok plan → ∃ ω, plan.Supports σ ω

theorem PatternPass.Preserving.keeps {p : PatternPass} (hp : p.Preserving)
    (received : NodeId → Tensor → Prop) : p.Keeps fun g => g.Delivers env received where
  pin _ _ _ hg e := hg.pin e
  unpin _ _ _ _ hg e := hg.unpin e
  commit g root m plan hg hm e hacc := hg.apply hacc fun σ hσ =>
    hp g _ env σ root m plan hg.table hσ node?_pinned hm e

def Pass.Preserving (p : Pass) : Prop :=
  ∀ g env received, g.Delivers env received → (p.run g).1.Delivers env received

theorem PatternPass.Preserving.toPass {p : PatternPass} (hp : p.Preserving) :
    p.toPass.Preserving := fun _ _ received hg => (hp.keeps received).run hg

theorem Pass.Preserving.both {p q : Pass} (hp : p.Preserving) (hq : q.Preserving)
    (name : String) : (both name p q).Preserving := by
  intro g env received hg
  have hfirst := hp g env received hg
  rcases both_fst (p := p) (q := q) (g := g) name with e | e <;> rw [e]
  · exact hfirst
  · exact hq _ env received hfirst

/-! ### Supported plans -/

/-- The values of operands when the staged nodes have these at their outputs. -/
def Operand.value (σ : Value → Option Tensor) (staged : Nat → Option Tensor) :
    Operand → Option Tensor
  | .graph v => σ v
  | .staged _ port => staged port

theorem Plan.supports_replace (h : ∀ t, σ v = some t → σ w = some t) :
    ∃ ω, (Plan.empty.replace v w : Plan Body).Supports σ ω := by
  refine ⟨Operand.value σ fun _ => none, fun _ => rfl, fun _ _ _ _ _ e => ?_, ?_⟩
  · cases e
  · exact List.forall_mem_singleton.mpr h

theorem Plan.supports_make (htable : g.table = .standard) (hσ : g.Grounded env σ)
    (inputs : List Value) (e : Plan.empty.make g op (inputs.map .graph) = .ok (q, k))
    (hop : op.kind ≠ .parameter) (sources : List NodeId)
    (h : ∀ t, σ v = some t → op.compute (inputs.map σ) 0 = some t) :
    ∃ ω, ((q.inherit sources).replace v (.staged k 0)).Supports σ ω := by
  obtain ⟨given, outputs, hgiven, hinfer, rfl, rfl⟩ := Plan.make_eq_ok_iff.mp e
  refine ⟨Operand.value σ (op.compute (inputs.map σ)), fun _ => rfl,
    fun i n port t hn ht => ?_, List.forall_mem_singleton.mpr h⟩
  obtain rfl := List.mem_singleton.mp (List.mem_of_getElem? hn)
  refine ⟨hop, by rwa [List.map_map], fun s hs => ?_⟩
  have hspecs := (mapM_eq_ok_iff fun _ _ => Plan.operandSpec_eq_ok_iff).mp hgiven
  rw [List.map_map] at hspecs
  rw [Arena.infer, htable] at hinfer
  refine Operation.refines_of_compute ht ?_ hinfer s (List.mem_of_getElem? hs)
  exact forall₂_of_map_eq hspecs fun w _ r hr u hu => hσ.refines w r u hr hu

/-! ### What a node computes -/

/-- A known value of an operation that is neither a parameter nor a constant is folded. -/
theorem Arena.Grounded.fold? (hσ : g.Grounded env σ) (hn : g.node? x = some n)
    (hop : n.op = .primitive p) (hp : p.kind ≠ .parameter ∧ p.kind ≠ .constant)
    (ht : σ ⟨x, port⟩ = some t) :
    ∃ operands, n.inputs.map σ = operands.map some ∧ p.fold? operands = some t := by
  have hkind : n.kind ≠ .parameter := by
    rw [Node.kind, hop]
    exact hp.1
  have hcompute := hσ.computed x n.bare port t (congrArg (Option.map Node.bare) hn) hkind ht
  rcases Operation.compute_eq_some_iff.mp hcompute with he | ⟨r, operands, hr, hvalues, hfold⟩
  · obtain rfl := Operation.primitive.inj (hop.symm.trans he)
    exact absurd rfl hp.2
  · obtain rfl := Operation.primitive.inj (hop.symm.trans hr)
    exact ⟨operands, hvalues, hfold⟩

theorem Arena.Grounded.fold?_unary (hσ : g.Grounded env σ) (hn : g.node? x = some n)
    (hop : n.op = .primitive p) (hp : p.kind ≠ .parameter ∧ p.kind ≠ .constant)
    (hin : n.inputs = [v]) (ht : σ ⟨x, port⟩ = some t) :
    ∃ u, σ v = some u ∧ p.fold? [u] = some t := by
  obtain ⟨operands, hvalues, hfold⟩ := hσ.fold? hn hop hp ht
  rw [hin] at hvalues
  obtain ⟨u, rfl, hu⟩ := List.map_eq_singleton_iff.mp hvalues.symm
  exact ⟨u, hu.symm, hfold⟩

/-! ### Transposes -/

namespace Transpose

theorem preserving_eliminateIdentity : eliminateIdentity.Preserving := by
  intro g h env σ root m plan _ hσ hnode hm e
  obtain ⟨n, v, hn, hkind, hin, hguard, rfl⟩ := Pattern.matchNode_unary hm
  have hidentity : isIdentity n.op = true := Guard.test_onOperation hn hguard
  rw [← hnode] at hn
  obtain rfl := eliminateIdentity_eq_ok e
  obtain ⟨perm, hop, hperm⟩ := perm?_of_kind (List.mem_singleton.mp hkind)
  refine Plan.supports_replace fun t ht => ?_
  obtain ⟨u, hu, hfold⟩ := hσ.fold?_unary hn hop ⟨Kind.noConfusion, Kind.noConfusion⟩ hin ht
  have hid : isIdentityPermutation perm = true := by simpa [isIdentity, hperm] using hidentity
  rw [Tensor.transpose?_eq_self hid hfold, hu]

theorem preserving_collapseChain : collapseChain.Preserving := by
  intro g h env σ root m plan htable hσ hnode hm e
  obtain ⟨n, w, n', v, hn, hkind, hin, hn', hkind', hin', -, rfl⟩ := Pattern.matchNode_chain hm
  rw [← hnode] at hn hn'
  obtain ⟨second, hop, hsecond⟩ := perm?_of_kind (List.mem_singleton.mp hkind)
  obtain ⟨first, hop', hfirst⟩ := perm?_of_kind (List.mem_singleton.mp hkind')
  -- what the two transposes compute one after the other
  have hchain (t : Tensor) (ht : σ (root.output 0) = some t) : ∃ s u, σ v = some s ∧
      s.transpose? first = some u ∧ u.transpose? second = some t := by
    obtain ⟨u, hu, hfold⟩ := hσ.fold?_unary hn hop ⟨Kind.noConfusion, Kind.noConfusion⟩ hin ht
    obtain ⟨s, hs, hfold'⟩ := hσ.fold?_unary hn' hop' ⟨Kind.noConfusion, Kind.noConfusion⟩ hin' hu
    exact ⟨s, u, hs, hfold', hfold⟩
  obtain ⟨first', second', composed, hf, hs, hcomposed, hplan⟩ := collapseChain_eq_ok hn hn' e
  obtain rfl := Option.some.inj (hfirst.symm.trans hf)
  obtain rfl := Option.some.inj (hsecond.symm.trans hs)
  have hjoin (t : Tensor) (ht : σ (root.output 0) = some t) :
      ∃ s, σ v = some s ∧ s.transpose? composed = some t := by
    obtain ⟨s, u, hs, hu, ht⟩ := hchain t ht
    refine ⟨s, hs, Tensor.transpose?_transpose? hu ht ?_⟩
    unfold compose? at hcomposed
    split at hcomposed
    · exact hcomposed
    · cases hcomposed
  rcases hplan with ⟨hid, rfl⟩ | ⟨q, k, hmake, rfl⟩
  · refine Plan.supports_replace fun t ht => ?_
    obtain ⟨s, hs, ht⟩ := hjoin t ht
    rw [Tensor.transpose?_eq_self hid ht, hs]
  · refine Plan.supports_make htable hσ [v] hmake Kind.noConfusion _ fun t ht => ?_
    obtain ⟨s, hs, ht⟩ := hjoin t ht
    exact Operation.compute_eq_some_iff.mpr (.inr ⟨_, [s], rfl, by simp [hs], ht⟩)

end Transpose

/-! ### Reshapes -/

namespace Reshape

theorem sizes_eq {s : Spec} (hs : s.shape.isStatic = true) (ht : t.spec.Refines s)
    (hu : u.spec.Refines s) : t.sizes = u.sizes := by
  have hknown {c : Tensor} (hc : c.spec.Refines s) : c.spec.shape = s.shape := by
    obtain ⟨-, hshape⟩ := hc
    generalize s.shape = shape at hs hshape
    cases hshape with
    | unranked => cases hs
    | ranked h => exact congrArg Shape.ranked (Shape.eq_of_refines_known h hs)
  have hextents := Shape.ranked.inj ((hknown ht).trans (hknown hu).symm)
  exact List.map_injective_iff.mpr (fun _ _ => Extent.known.inj) hextents

theorem preserving_eliminateIdentity : eliminateIdentity.Preserving := by
  intro g h env σ root m plan _ hσ hnode hm e
  obtain ⟨n, v, hn, hkind, hin, -, rfl⟩ := Pattern.matchNode_unary hm
  rw [← hnode] at hn
  obtain ⟨s, hbefore, hafter, hstatic, rfl⟩ := eliminateIdentity_eq_ok e
  obtain ⟨target, specialZero, hop, -⟩ := target?_of_kind (List.mem_singleton.mp hkind)
  refine Plan.supports_replace fun t ht => ?_
  obtain ⟨u, hu, hfold⟩ := hσ.fold?_unary hn hop ⟨Kind.noConfusion, Kind.noConfusion⟩ hin ht
  have hsizes := sizes_eq hstatic (hσ.refines _ _ t hafter ht) (hσ.refines _ _ u hbefore hu)
  rw [Tensor.reshape?_eq_self hfold hsizes, hu]

theorem preserving_collapseChain : collapseChain.Preserving := by
  intro g h env σ root m plan htable hσ hnode hm e
  obtain ⟨n, w, n', v, hn, hkind, hin, hn', hkind', hin', hguard, rfl⟩ :=
    Pattern.matchNode_chain hm
  have hself : isSelfContained n.op = true := Guard.test_onOperation hn hguard
  rw [← hnode] at hn hn'
  obtain ⟨target, specialZero, hop, htarget⟩ := target?_of_kind (List.mem_singleton.mp hkind)
  obtain ⟨target', specialZero', hop', -⟩ := target?_of_kind (List.mem_singleton.mp hkind')
  obtain ⟨target₂, q, k, -, ht, hmake, -, -, rfl⟩ := collapseChain_eq_ok hn e
  obtain rfl := Option.some.inj (htarget.symm.trans ht)
  refine Plan.supports_make htable hσ [v] hmake Kind.noConfusion _ fun t ht => ?_
  obtain ⟨u, hu, hfold⟩ := hσ.fold?_unary hn hop ⟨Kind.noConfusion, Kind.noConfusion⟩ hin ht
  obtain ⟨s, hs, hfold'⟩ := hσ.fold?_unary hn' hop' ⟨Kind.noConfusion, Kind.noConfusion⟩ hin' hu
  have hself := selfContained_of_isSelfContained (hop ▸ hself)
  have hjoin := Tensor.reshape?_reshape? hfold' hfold hself
  exact Operation.compute_eq_some_iff.mpr (.inr ⟨_, [s], rfl, by simp [hs], hjoin⟩)

end Reshape

/-! ### Constants -/

namespace ConstantFolding

theorem kind_of_fold? {operands : List Tensor} (h : p.fold? operands = some t) :
    p.kind ≠ .parameter ∧ p.kind ≠ .constant := by
  constructor <;> intro hk <;> cases p <;> first | cases h | cases hk

theorem eq_of_constant? {c : Tensor} (hσ : h.Grounded env σ) (hc : constant? h v = some c)
    (ht : σ v = some t) : t = c := by
  obtain ⟨n, hn, hc⟩ := Option.bind_eq_some_iff.mp hc
  have hop := Operation.constant?_eq_some_iff.mp hc
  have hkind : n.kind ≠ .parameter := by
    rw [Node.kind, hop]
    exact Kind.noConfusion
  have hcompute := hσ.computed v.node n.bare v.port t (congrArg (Option.map Node.bare) hn) hkind ht
  have hop' : n.bare.op = .primitive (.constant c) := hop
  rw [hop'] at hcompute
  exact (Option.some.inj hcompute).symm

theorem preserving_pass : pass.Preserving := by
  intro g h env σ root m plan htable hσ _ _ e
  obtain ⟨c, q, k, hfolded, hmake, rfl⟩ := rewrite_eq_ok e
  refine Plan.supports_make htable hσ [] hmake Kind.noConfusion _ fun t ht => ?_
  obtain ⟨n, p, constants, hn, hop, hconstants, hfolded⟩ := folded_eq_ok_iff.mp hfolded
  obtain ⟨-, hfolded⟩ := Primitive.fold_eq_ok_iff.mp hfolded
  obtain ⟨operands, hvalues, hfold⟩ := hσ.fold? hn hop (kind_of_fold? hfolded) ht
  have hsame : n.inputs.map σ = n.inputs.map (constant? h) := by
    rw [mapM_eq_some_iff] at hconstants
    refine List.map_congr_left fun w hw => ?_
    obtain ⟨a, -, ha⟩ := List.mem_map.mp (hvalues ▸ List.mem_map_of_mem hw)
    obtain ⟨b, -, hb⟩ := List.mem_map.mp (hconstants ▸ List.mem_map_of_mem hw)
    rw [← ha, ← hb, eq_of_constant? hσ hb.symm ha.symm]
  obtain rfl : operands = constants := by
    refine List.map_injective_iff.mpr (Option.some_injective Tensor) ?_
    rw [← hvalues, hsame, mapM_eq_some_iff.mp hconstants]
  exact hfolded.symm.trans hfold

end ConstantFolding

/-! ### Sequences of runs -/

def Rewriting.runAll (rs : List Rewriting) (g : Graph) : Graph :=
  rs.foldl (fun g r => (r.pass.run g).1) g

theorem Rewriting.preserving {r : Rewriting} (hr : r ∈ [transpose, reshape, folding]) :
    r.pass.Preserving := by
  cases r with
  | transpose =>
    exact Transpose.preserving_eliminateIdentity.toPass.both
      Transpose.preserving_collapseChain.toPass _
  | reshape =>
    exact Reshape.preserving_eliminateIdentity.toPass.both
      Reshape.preserving_collapseChain.toPass _
  | folding => exact ConstantFolding.preserving_pass.toPass
  | biasFusion | quantizedBiasFusion | uniqueLowering => simp at hr

theorem Rewriting.delivers_runAll {rs : List Rewriting}
    (hrs : ∀ r ∈ rs, r ∈ [transpose, reshape, folding]) {received : NodeId → Tensor → Prop}
    (hg : g.Delivers env received) : (runAll rs g).Delivers env received := by
  unfold runAll
  induction rs generalizing g with
  | nil => exact hg
  | cons r rs ih =>
    obtain ⟨hr, hrs⟩ := List.forall_mem_cons.mp hrs
    exact ih hrs (preserving hr g env received hg)

/-- Whatever the parameters are, every result that receives a value keeps it in any sequence of
canonicalizations and folding. -/
theorem Rewriting.received_runAll {rs : List Rewriting}
    (hrs : ∀ r ∈ rs, r ∈ [transpose, reshape, folding]) (hg : g.WellFormed)
    (htable : g.table = .standard) (hi : g.Inferred) (henv : g.Admits env)
    (hx : g.kind? x = some .result)
    (ht : g.received Operation.compute (fun y => some (env y)) x = some [some t]) :
    (runAll rs g).kind? x = some .result ∧
      (runAll rs g).received Operation.compute (fun y => some (env y)) x = some [some t] := by
  have hstart : g.Delivers env fun y u => y = x ∧ u = t := by
    refine ⟨hg, htable, _, grounded_valueOf hg htable hi henv, ?_⟩
    rintro y u ⟨rfl, rfl⟩
    obtain ⟨m, hm, hkind⟩ := Option.map_eq_some_iff.mp hx
    rw [received, hm] at ht
    exact ⟨m.bare, congrArg (Option.map Node.bare) hm, hkind, Option.some.inj ht⟩
  obtain ⟨hwf, -, σ, hσ, hvalues⟩ := delivers_runAll hrs hstart
  obtain ⟨n, hn, hkind, hinputs⟩ := hvalues x t ⟨rfl, rfl⟩
  refine ⟨by rw [kind?_eq_bare, hn, Option.map_some, hkind], ?_⟩
  rw [received_eq_bare, hn, Option.map_some]
  obtain ⟨v, hv, he⟩ := List.map_eq_singleton_iff.mp hinputs
  have hlive := hwf.linked.contains_of_input hn (hv ▸ List.mem_singleton_self v)
  rw [hv, List.map_singleton, hσ.valueOf hwf hlive he]

/-! ### A matrix of which the rows are not counted -/

namespace Rewriting

open Pipeline (slotOf first reader f32)

def openRows : Spec := ⟨.f32, .ranked [.unknown, .known 3]⟩

def openColumns : Spec := ⟨.f32, .ranked [.known 3, .unknown]⟩

/-- The sum of a parameter that is transposed twice and of a constant that is reshaped. -/
def padded : Graph where
  slots := #[
    slotOf (Primitive.parameter openRows) [] [⟨openRows, [reader 1 0]⟩],
    slotOf (Primitive.transpose [1, 0]) [first 0] [⟨openColumns, [reader 2 0]⟩],
    slotOf (Primitive.transpose [1, 0]) [first 1] [⟨openRows, [reader 5 0]⟩],
    slotOf (Primitive.constant (.splat .f32 [3] 1)) [] [⟨f32 [3], [reader 4 0]⟩],
    slotOf (Primitive.reshape [1, -1] false) [first 3] [⟨f32 [1, 3], [reader 5 1]⟩],
    slotOf Primitive.add [first 2, first 4] [⟨openRows, [reader 6 0]⟩],
    slotOf Primitive.result [first 5] []]
  free := []
  parameters := [⟨0, 0⟩]
  results := [⟨6, 0⟩]
  live := 7
  version := 0
  table := .standard

theorem wellFormed_padded : padded.WellFormed :=
  Arena.wellFormed_of_validate (by cbv) (by decide) (by decide) (by decide)
    (fun _ h => absurd h List.not_mem_nil) (by cbv)

theorem inferred_padded : padded.Inferred := by
  refine inferred_of_nodeIds ?_
  have hids : padded.nodeIds =
      [⟨0, 0⟩, ⟨1, 0⟩, ⟨2, 0⟩, ⟨3, 0⟩, ⟨4, 0⟩, ⟨5, 0⟩, ⟨6, 0⟩] := by rfl
  rw [hids]
  simp only [List.forall_mem_cons, List.not_mem_nil, false_implies, implies_true, and_true]
  refine ⟨?_, ?_, ?_, ?_, ?_, ?_, ?_⟩ <;> rfl

def twoRows (_ : NodeId) : Tensor := .splat .f32 [2, 3] 2

theorem admits_twoRows : padded.Admits twoRows := by
  intro x n s hn hop
  obtain ⟨slot, hs, -, hn⟩ := Arena.node?_eq_some_iff.mp hn
  match x.index, hs with
  | 0, hs =>
    obtain rfl := Option.some.inj hs
    obtain rfl := Option.some.inj hn
    obtain rfl := Primitive.parameter.inj (Operation.primitive.inj hop)
    exact ⟨rfl, .ranked (.cons (.unknown _) (.cons (.known 3) .nil))⟩
  | 1, hs | 2, hs | 3, hs | 4, hs | 5, hs | 6, hs =>
    obtain rfl := Option.some.inj hs
    obtain rfl := Option.some.inj hn
    cases hop
  | _ + 7, hs => cases hs

/-- The parameter, the folded constant, the sum and the result are left, and the sum is the same. -/
theorem received_padded : (runAll [folding, transpose, reshape] padded).occupied = 4 ∧
    ∃ t : Tensor, t.sizes = [2, 3] ∧
      padded.received Operation.compute (fun y => some (twoRows y)) ⟨6, 0⟩ = some [some t] ∧
      (runAll [folding, transpose, reshape] padded).received Operation.compute
        (fun y => some (twoRows y)) ⟨6, 0⟩ = some [some t] := by
  refine ⟨by cbv, ?_⟩
  obtain ⟨t, ht, hsizes⟩ : ∃ t : Tensor,
      padded.received Operation.compute (fun y => some (twoRows y)) ⟨6, 0⟩ = some [some t] ∧
        t.sizes = [2, 3] := ⟨_, rfl, rfl⟩
  have hpasses : ∀ r ∈ [folding, transpose, reshape], r ∈ [transpose, reshape, folding] := by
    decide
  exact ⟨t, hsizes, ht,
    (received_runAll hpasses wellFormed_padded rfl inferred_padded admits_twoRows rfl ht).2⟩

end Rewriting

end TensorGraph
