import TensorGraph.Proofs.Inference.Drift
import TensorGraph.Proofs.Inference.Folding
import TensorGraph.Proofs.Pass.Balance
import TensorGraph.Proofs.Pass.Evaluation

/-! # Specs in the course of a run

What one rewrite of a pass may do to the specs of the outputs it replaces, every rewrite of a run
does, if the pass stays within a drift. For the canonicalization of transposes and reshapes and for
constant folding that is hardly anything: only a transpose of a value of unknown rank takes
knowledge with it when it is dropped.
-/

namespace TensorGraph

open Arena

variable {d : Drift} {g h : Graph} {root : NodeId} {m : Match}
variable {n : Node Body} {v w : Value} {plan : Plan Body} {a b s out : Spec} {perm : List Nat}

/-! ### Visits -/

namespace PatternPass

variable {p : PatternPass} {Q : Spec → Spec → Prop} {u : Visit}

/-- No rewrite leaves the drift, and what it puts in the place of an output is related to it. -/
def Drifts (p : PatternPass) (d : Drift) (Q : Spec → Spec → Prop) : Prop :=
  ∀ (g h : Graph) root m plan, h.Adrift d → h.node? = g.node? →
    p.pattern.matchNode g root = some m → p.rewrite h m = .ok plan →
      plan.Follows h d ∧ plan.Exchanges h Q

theorem Drifts.keeps (hp : p.Drifts d Q) : p.Keeps fun g => g.Adrift d where
  pin _ _ _ hg e := hg.pin e
  unpin _ _ _ _ hg e := hg.unpin e
  commit g root m plan hg hm e hacc := hg.apply hacc (hp g _ root m plan hg node?_pinned hm e).1

theorem Drifts.trace (hp : p.Drifts d Q) (hg : g.Adrift d) (hu : u ∈ p.trace g)
    (e : p.rewrite u.graph u.found = .ok plan) : plan.Exchanges u.graph Q := by
  obtain ⟨hbefore, hm⟩ := hp.keeps.trace hg hu
  have hgraph : u.graph.Adrift d := pinned_induction (P := fun g => g.Adrift d)
    (fun _ _ hh hx => hh.modifyPins hx _) hbefore (contains_of_matchAt? hm)
  exact (hp u.before _ _ _ plan hgraph node?_pinned (matchNode_of_matchAt? hm) e).2

end PatternPass

theorem Arena.spec?_output (hn : g.node? root = some n) (hspecs : n.specs = [out]) :
    g.spec? (root.output 0) = some out := by
  rw [spec?_of_node? hn, hspecs]
  rfl

/-! ### Transposes -/

/-- The same, or all that is left of a known rank is the element type. -/
def Spec.Forgets (a s : Spec) : Prop :=
  a = s ∨ a.shape = .unranked ∧ ∃ rank, s = ⟨a.elementType, .ofRank rank⟩

theorem Spec.Forgets.trans (h : a.Forgets b) (h' : b.Forgets s) : a.Forgets s := by
  rcases h with rfl | ⟨hunranked, rank, rfl⟩
  · exact h'
  · rcases h' with rfl | ⟨hb, -⟩
    · exact .inr ⟨hunranked, rank, rfl⟩
    · cases hb

/-- Knowledge is kept exactly if there is a rank left. -/
theorem Spec.Forgets.refines_iff (h : a.Forgets s) (hs : s.shape ≠ .unranked) :
    a.Refines s ↔ a.shape ≠ .unranked := by
  constructor
  · rintro ⟨-, hshape⟩ hunranked
    rw [hunranked] at hshape
    generalize s.shape = shape at hs hshape
    cases hshape
    exact hs rfl
  · intro ha
    rcases h with rfl | ⟨hunranked, -⟩
    · exact .rfl
    · exact absurd hunranked ha

namespace Inferred

theorem transpose_eq_ok_iff : transpose perm s = .ok out ↔ isPermutation perm = true ∧
    match s.shape with
    | .unranked => out = ⟨s.elementType, .ofRank perm.length⟩
    | .ranked extents => extents.length = perm.length ∧
        out = ⟨s.elementType, .ranked (perm.map fun axis => extents.getD axis .unknown)⟩ := by
  simp only [transpose, bind_eq_ok_iff]
  cases s.shape with
  | unranked =>
    constructor
    · rintro ⟨_, hperm, e⟩
      exact ⟨require_eq_ok_iff.mp hperm, (Except.ok.inj e).symm⟩
    · rintro ⟨hperm, rfl⟩
      exact ⟨(), require_eq_ok_iff.mpr hperm, rfl⟩
  | ranked extents =>
    simp only [bind_eq_ok_iff]
    constructor
    · rintro ⟨_, hperm, _, hlen, e⟩
      exact ⟨require_eq_ok_iff.mp hperm, eq_of_beq (require_eq_ok_iff.mp hlen),
        (Except.ok.inj e).symm⟩
    · rintro ⟨hperm, hlen, rfl⟩
      exact ⟨(), require_eq_ok_iff.mpr hperm, (), require_eq_ok_iff.mpr (beq_iff_eq.mpr hlen), rfl⟩

theorem ranked_of_transpose (h : transpose perm s = .ok out) : out.shape ≠ .unranked := by
  have hout := (transpose_eq_ok_iff.mp h).2
  split at hout
  · rw [hout]
    exact Shape.noConfusion
  · rw [hout.2]
    exact Shape.noConfusion

theorem map_getD_replicate (perm : List Nat) (rank : Nat) :
    perm.map (fun axis => (List.replicate rank Extent.unknown).getD axis .unknown) =
      List.replicate perm.length .unknown := by
  refine List.eq_replicate_iff.mpr ⟨List.length_map _, fun e he => ?_⟩
  obtain ⟨axis, -, rfl⟩ := List.mem_map.mp he
  rw [List.getD_eq_getElem?_getD, List.getElem?_replicate]
  split <;> rfl

theorem transpose_forgets (ha : a.Forgets s) (h : transpose perm s = .ok out) :
    transpose perm a = .ok out := by
  rcases ha with rfl | ⟨hunranked, rank, rfl⟩
  · exact h
  · obtain ⟨hperm, -, rfl⟩ := transpose_eq_ok_iff.mp h
    refine transpose_eq_ok_iff.mpr ⟨hperm, ?_⟩
    rw [hunranked, map_getD_replicate]
    rfl

theorem forgets_of_identity (hid : isIdentityPermutation perm = true)
    (h : transpose perm s = .ok out) : s.Forgets out := by
  obtain ⟨-, hout⟩ := transpose_eq_ok_iff.mp h
  obtain ⟨t, shape⟩ := s
  cases shape with
  | unranked => exact .inr ⟨rfl, perm.length, hout⟩
  | ranked extents =>
    obtain ⟨hlen, rfl⟩ := hout
    refine .inl ?_
    obtain rfl : perm = List.range extents.length := hlen ▸ eq_of_beq hid
    congr 2
    refine List.ext_getElem (by simp) fun axis haxis _ => ?_
    rw [List.getElem_map, List.getElem_range, List.getD_eq_getElem _ _ haxis]

theorem transpose_transpose {first second : List Nat} (h : transpose first s = .ok a)
    (h' : transpose second a = .ok out) (hc : Transpose.compose? first second = some perm) :
    transpose perm s = .ok out := by
  unfold Transpose.compose? at hc
  split at hc
  · rename_i hlength
    obtain ⟨hfirst, ha⟩ := transpose_eq_ok_iff.mp h
    obtain ⟨hsecond, hout⟩ := transpose_eq_ok_iff.mp h'
    have hcomposes := composes_of_mapM hlength hfirst hsecond hc
    refine transpose_eq_ok_iff.mpr ⟨hcomposes.isPermutation, ?_⟩
    obtain ⟨t, shape⟩ := s
    cases shape with
    | unranked =>
      dsimp only at ha ⊢
      obtain rfl := ha
      rw [hout.2, map_getD_replicate, hcomposes.length_eq]
      rfl
    | ranked extents =>
      obtain ⟨hlen, rfl⟩ := ha
      refine ⟨by rw [hlen, hlength, hcomposes.length_eq], hout.2.trans ?_⟩
      congr 2
      rw [hcomposes.composed, List.map_map]
      refine List.map_congr_left fun axis haxis => ?_
      have hlt : axis < first.length := hlength ▸ (isPermutation_iff.mp hsecond).1 axis haxis
      simp [hlt]
  · cases hc

end Inferred

namespace Transpose

/-- The rank of an input may be forgotten. -/
def drift : Drift where
  rel _ a s := a.Forgets s
  staged _ := True
  trans := .trans
  same _ := .inl rfl

/-- The output of a transpose has a rank, whatever is put in its place. -/
def Replaces (new old : Spec) : Prop := new.Forgets old ∧ old.shape ≠ .unranked

theorem follows (hp : plan.Infers g fun _ => True) (h : plan.Exchanges g Replaces) :
    plan.Follows g drift ∧ plan.Exchanges g Replaces :=
  ⟨⟨hp, h.mono fun _ _ hr _ => hr.1⟩, h⟩

theorem exists_output (hg : g.Adrift drift) (hn : g.node? root = some n)
    (hop : n.op = .primitive (.transpose perm)) (hin : n.inputs = [v]) :
    ∃ a out, g.spec? v = some a ∧ Inferred.transpose perm a = .ok out ∧ n.specs = [out] := by
  obtain ⟨a, s, ha, hforgets, hinfer⟩ := hg.unary hn hop hin
  obtain ⟨s', out, hs, hout, hspecs⟩ := (CapabilityTable.infer_first_iff rfl rfl).mp hinfer
  obtain ⟨rfl, -⟩ := List.cons.inj hs
  exact ⟨a, out, ha, Inferred.transpose_forgets hforgets hout, hspecs⟩

theorem drifts_eliminateIdentity : eliminateIdentity.Drifts drift Replaces := by
  intro g h root m plan hh hnode hm e
  obtain ⟨n, v, hn, hkind, hin, hguard, rfl⟩ := Pattern.matchNode_unary hm
  have hidentity : isIdentity n.op = true := Guard.test_onOperation hn hguard
  rw [← hnode] at hn
  have hinfers : plan.Infers h fun _ => True :=
    Staging.Infers.toPlan Staging.infers_replace (rewrite_change.symm.trans e)
  obtain rfl := eliminateIdentity_eq_ok e
  obtain ⟨perm, hop, hperm⟩ := perm?_of_kind (List.mem_singleton.mp hkind)
  have hid : isIdentityPermutation perm = true := by simpa [isIdentity, hperm] using hidentity
  obtain ⟨a, out, ha, hout, hspecs⟩ := exists_output hh hn hop hin
  exact follows hinfers (Plan.exchanges_singleton rfl ha (spec?_output hn hspecs)
    ⟨Inferred.forgets_of_identity hid hout, Inferred.ranked_of_transpose hout⟩)

theorem drifts_collapseChain : collapseChain.Drifts drift Replaces := by
  intro g h root m plan hh hnode hm e
  obtain ⟨n, w, n', v, hn, hkind, hin, hn', hkind', hin', -, rfl⟩ := Pattern.matchNode_chain hm
  rw [← hnode] at hn hn'
  have hinfers : plan.Infers h fun _ => True := by
    refine Staging.Infers.toPlan (.bind Staging.infers_ofOption fun _ =>
      .bind Staging.infers_ofOption fun _ => .bind Staging.infers_ofOption fun _ => ?_)
      (rewrite_chain.symm.trans e)
    split
    · exact Staging.infers_replace
    · exact .bind (Staging.infers_makeValue trivial) fun _ =>
        .bind Staging.infers_inherit fun _ => Staging.infers_replace
  obtain ⟨second, hop, hsecond⟩ := perm?_of_kind (List.mem_singleton.mp hkind)
  obtain ⟨first, hop', hfirst⟩ := perm?_of_kind (List.mem_singleton.mp hkind')
  obtain ⟨first', second', composed, hf, hs, hcomposed, hplan⟩ := collapseChain_eq_ok hn hn' e
  obtain rfl := Option.some.inj (hfirst.symm.trans hf)
  obtain rfl := Option.some.inj (hsecond.symm.trans hs)
  obtain ⟨b, out, hb, hout, hspecs⟩ := exists_output hh hn hop hin
  obtain ⟨a, b', ha, hb', hspecs'⟩ := exists_output hh hn' hop' hin'
  obtain rfl := spec_eq_of_single hn' hspecs' hb
  have hold := spec?_output hn hspecs
  have hjoin := Inferred.transpose_transpose hb' hout hcomposed
  rcases hplan with ⟨hid, rfl⟩ | ⟨q, k, hmake, rfl⟩
  · exact follows hinfers (Plan.exchanges_singleton rfl ha hold
      ⟨Inferred.forgets_of_identity hid hjoin, Inferred.ranked_of_transpose hout⟩)
  · have hinfer : h.infer (Primitive.transpose composed) [a] = .ok [out] := by
      rw [infer, hh.table]
      exact (CapabilityTable.infer_first_iff rfl rfl).mpr ⟨a, out, rfl, hjoin, rfl⟩
    have hgiven : [Operand.graph v].map (Plan.empty.spec? h) = [a].map some :=
      congrArg ([·]) ha
    exact follows hinfers (Plan.exchanges_make hmake hgiven hinfer hold
      ⟨.inl rfl, Inferred.ranked_of_transpose hout⟩ _)

end Transpose

/-! ### Reshapes -/

namespace Reshape

def drift : Drift where
  rel _ a s := a = s
  staged _ := True
  trans := .trans
  same _ := rfl

theorem follows (hp : plan.Infers g fun _ => True) (h : plan.Exchanges g Eq) :
    plan.Follows g drift ∧ plan.Exchanges g Eq := ⟨⟨hp, h.mono fun _ _ he _ => he⟩, h⟩

theorem drifts_eliminateIdentity : eliminateIdentity.Drifts drift Eq := by
  intro g h root m plan _ _ hm e
  obtain ⟨n, v, -, -, -, -, rfl⟩ := Pattern.matchNode_unary hm
  have hinfers : plan.Infers h fun _ => True :=
    Staging.Infers.toPlan (.bind Staging.infers_spec fun _ => .bind Staging.infers_spec fun _ =>
      .bind Staging.infers_check fun _ => Staging.infers_replace) (rewrite_change.symm.trans e)
  obtain ⟨s, hbefore, hafter, -, rfl⟩ := eliminateIdentity_eq_ok e
  exact follows hinfers (Plan.exchanges_singleton rfl hbefore hafter rfl)

theorem drifts_collapseChain : collapseChain.Drifts drift Eq := by
  intro g h root m plan _ hnode hm e
  obtain ⟨n, w, n', v, hn, -, -, -, -, -, -, rfl⟩ := Pattern.matchNode_chain hm
  rw [← hnode] at hn
  have hinfers : plan.Infers h fun _ => True :=
    Staging.Infers.toPlan (.bind Staging.infers_ofOption fun _ =>
      .bind (Staging.infers_makeValue trivial) fun _ => .bind Staging.infers_spec fun _ =>
      .bind Staging.infers_spec fun _ => .bind Staging.infers_check fun _ =>
      .bind Staging.infers_inherit fun _ => Staging.infers_replace) (rewrite_chain.symm.trans e)
  obtain ⟨target, q, k, s, -, hmake, hdirect, hcurrent, rfl⟩ := collapseChain_eq_ok hn e
  obtain ⟨given, outputs, -, -, rfl, rfl⟩ := Plan.make_eq_ok_iff.mp hmake
  exact follows hinfers (Plan.exchanges_singleton rfl hdirect hcurrent rfl)

end Reshape

/-! ### Constants -/

def Drift.refining : Drift where
  rel _ a s := a.Refines s
  staged _ := True
  trans := .trans
  same _ := .rfl

namespace ConstantFolding

theorem spec_of_constant? {t : Tensor} (hg : g.Adrift d) (hc : constant? g v = some t)
    (ha : g.spec? v = some a) : a = t.spec := by
  obtain ⟨n, hn, hop⟩ := Option.bind_eq_some_iff.mp hc
  obtain ⟨given, -, hinfer⟩ := hg.infer hn (Operation.constant?_eq_some_iff.mp hop)
  exact spec_eq_of_single hn (CapabilityTable.infer_constant_iff.mp hinfer).2 ha

theorem drifts_pass : pass.Drifts .refining Spec.Refines := by
  intro g h root m plan hh _ hm e
  have hinfers : plan.Infers h fun _ => True := by
    dsimp only [pass] at e
    exact Staging.Infers.toPlan (.bind Staging.infers_ofAttempt fun _ =>
      .bind (Staging.infers_makeValue trivial) fun _ => .bind Staging.infers_inherit fun _ =>
      Staging.infers_replace) e
  obtain ⟨c, q, k, hfolded, hmake, rfl⟩ := rewrite_eq_ok e
  obtain ⟨n, p, operands, hn, hop, hoperands, hfolded⟩ := folded_eq_ok_iff.mp hfolded
  obtain ⟨hfits, hfolded⟩ := Primitive.fold_eq_ok_iff.mp hfolded
  obtain ⟨given, hgiven, hinfer⟩ := hh.infer hn hop
  obtain ⟨s, hs, hrefines⟩ := Primitive.infer_of_fold? hfolded fun _ => hfits
  -- what is known of the operands is at least what inference saw
  have hnow : List.Forall₂ Spec.Refines (operands.map Tensor.spec) given := by
    have hconstants := map_eq_map_some_iff.mp (mapM_eq_some_iff.mp hoperands)
    refine List.forall₂_map_left_iff.mpr (forall₂_trans ?_ hconstants.flip hgiven)
    rintro t v s hc ⟨a, ha, hrefines⟩
    exact spec_of_constant? hh hc ha ▸ hrefines
  have hp : p ≠ .fullyConnected := by
    rintro rfl
    cases hfolded
  obtain ⟨outputs, houtputs, hall⟩ := CapabilityTable.covers_infer p hp hnow _ hs
  obtain rfl := Except.ok.inj (hinfer.symm.trans houtputs)
  obtain ⟨old, _, hold, hnil, hspecs⟩ := List.forall₂_cons_left_iff.mp hall
  obtain rfl := List.forall₂_nil_left_iff.mp hnil
  have hconstant : h.infer (Primitive.constant c) [] = .ok [c.spec] := by
    rw [infer, hh.table]
    exact CapabilityTable.infer_constant_iff.mpr ⟨rfl, rfl⟩
  have hexchanges := Plan.exchanges_make (P := Spec.Refines) hmake rfl hconstant
    (spec?_output hn hspecs) (hrefines.trans hold)
  exact ⟨⟨hinfers, (hexchanges _).mono fun _ _ hr _ => hr⟩, hexchanges _⟩

end ConstantFolding

end TensorGraph
