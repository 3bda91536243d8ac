import TensorGraph.Proofs.Pass.Canonicalization
import TensorGraph.Proofs.Pass.Locality
import TensorGraph.Proofs.Pass.Provenance

/-! # Confined rewrites

Every built-in rewrite reads nothing but what the nodes of its match read, and replaces outputs of
the root alone. This is proved step by step along the builder of its plan.
-/

namespace TensorGraph

open Relation Arena

variable {a g : Graph} {root x : NodeId} {m : Match} {p : Plan Body} {n : Node Body}
variable {O A : Value → Prop} {v : Value} {o : Operand}

/-! ### Steps of a confined plan -/

namespace Staging

variable {α γ : Type} {s : Staging α} {f : α → Staging γ} {Q : α → Prop} {R : γ → Prop}

/-- Unless it gives up, a step leaves a confined plan confined, such that the condition holds. -/
def Confines (O A : Value → Prop) (s : Staging α) (Q : α → Prop) : Prop :=
  ∀ p a q, p.Confined O A → s p = .ok (a, q) → q.Confined O A ∧ Q a

theorem confines_of_sketches (h : ∀ p, Sketches A p s fun a _ => Q a) : Confines O A s Q := by
  intro p a q hp e
  obtain ⟨hq, hext, ha⟩ := h p hp.sketch a q e
  exact ⟨⟨hq, hext.replacements ▸ hp.replacements⟩, ha⟩

theorem Confines.bind (hs : Confines O A s Q) (hf : ∀ a, Q a → Confines O A (f a) R) :
    Confines O A (s >>= f) R := by
  intro p b r hp e
  obtain ⟨a, q, ha, hb⟩ := bind_ok_iff.mp e
  obtain ⟨hq, hQ⟩ := hs p a q hp ha
  exact hf a hQ q b r hq hb

theorem confines_pure {a : α} (h : Q a) : Confines O A (pure a) Q :=
  confines_of_sketches fun _ => sketches_pure h

theorem confines_ofAttempt {x : Attempt α} : Confines O A (ofAttempt x) fun a => x = .ok a :=
  confines_of_sketches fun _ => sketches_ofAttempt.mono fun _ _ h => h.1

theorem confines_ofOption {o : Option α} : Confines O A (ofOption o) fun a => o = some a :=
  confines_of_sketches fun _ => sketches_ofOption.mono fun _ _ h => h.1

theorem confines_check {condition : Bool} : Confines O A (check condition) fun _ => True :=
  confines_of_sketches fun _ => sketches_check.mono fun _ _ _ => trivial

theorem confines_spec : Confines O A (spec g o) fun _ => True := by
  intro p s q hp e
  obtain ⟨-, rfl⟩ := spec_eq_ok_iff.mp e
  exact ⟨hp, trivial⟩

theorem confines_make {s : Primitive} {inputs : List Operand} (hk : s.kind.isAnchor = false)
    (hx : ∀ x ∈ inputs, x.Within A) : Confines O A (make g s inputs) fun _ => True :=
  confines_of_sketches fun _ => (sketches_make hk hx).mono fun _ _ _ => trivial

theorem confines_makeValue {s : Primitive} {inputs : List Operand} (hk : s.kind.isAnchor = false)
    (hx : ∀ x ∈ inputs, x.Within A) : Confines O A (makeValue g s inputs) (·.Within A) :=
  confines_of_sketches fun _ => (sketches_makeValue hk hx).mono fun _ _ h => h.1

theorem confines_rename {k : Nat} {name : String} : Confines O A (rename k name) fun _ => True :=
  confines_of_sketches fun _ => sketches_rename

theorem confines_inherit {sources : List NodeId} :
    Confines O A (inherit sources) fun _ => True := by
  intro p _ q hp e
  obtain rfl := inherit_eq_ok_iff.mp e
  exact ⟨⟨⟨hp.sketch.plain, hp.sketch.primitive, hp.sketch.operands⟩, hp.replacements⟩, trivial⟩

theorem confines_replace (hv : O v) (ho : o.Within A) :
    Confines O A (replace v o) fun _ => True := by
  intro p _ q hp e
  obtain rfl := replace_eq_ok_iff.mp e
  refine ⟨⟨⟨hp.sketch.plain, hp.sketch.primitive, hp.sketch.operands⟩, fun r hr => ?_⟩, trivial⟩
  rcases List.mem_append.mp hr with hr | hr
  · exact hp.replacements r hr
  · obtain rfl := List.mem_singleton.mp hr
    exact ⟨hv, ho⟩

theorem confined_of_toPlan {s : Staging Unit} (e : s.toPlan = .ok p)
    (h : Confines O A s fun _ => True) : p.Confined O A :=
  (h .empty () p ⟨Plan.sketch_empty A, fun _ hr => absurd hr List.not_mem_nil⟩
    (toPlan_eq_ok_iff.mp e)).1

end Staging

open Staging

/-! ### Passes -/

/-- Every plan for a match is confined to what the matched nodes read, and the root depends on
these. -/
structure PatternPass.IsLocal (p : PatternPass) : Prop where
  wraps : p.pattern.root.Wraps fun k => k.isAnchor = false
  reaches : ∀ g root m, p.pattern.matchNode g root = some m →
    root ∈ m.nodes ∧ ∀ x ∈ m.nodes, ReflTransGen g.Reads root x
  confined : ∀ a g root m plan, a.node? = g.node? → p.pattern.matchNode g root = some m →
    p.rewrite a m = .ok plan → plan.Confined (·.node = root) (g.Feeds m.nodes)

theorem feeds_of_input {nodes : List NodeId} (hx : x ∈ nodes) (hn : g.node? x = some n)
    (hv : v ∈ n.inputs) : g.Feeds nodes v := by
  obtain ⟨port, hport⟩ := List.mem_iff_getElem?.mp hv
  exact ⟨x.input port, hx, producer?_eq_some_iff.mpr ⟨n, hn, hport⟩⟩

def changeMatch (root : NodeId) (v : Value) : Match :=
  ⟨root.output 0, [⟨1, root.output 0, true⟩, ⟨0, v, false⟩]⟩

theorem mem_nodes_changeMatch : x ∈ (changeMatch root v).nodes ↔ x = root := by
  rw [Match.mem_nodes_iff]
  simp [changeMatch, NodeId.output, @eq_comm _ x]

theorem isLocal_of_change {p : PatternPass} {k : Kind} {guard : Guard} {size : Nat}
    (hp : p.pattern = ⟨.wrap 1 [k] [.input 0 .always] guard, size⟩) (hk : k.isAnchor = false)
    (h : ∀ a root v plan A, A v → p.rewrite a (changeMatch root v) = .ok plan →
      plan.Confined (·.node = root) A) : p.IsLocal where
  wraps := by
    rw [hp]
    exact ⟨List.forall_mem_singleton.mpr hk, trivial, trivial⟩
  reaches g root m hm := by
    rw [hp] at hm
    obtain ⟨n, v, -, -, -, -, rfl⟩ := Pattern.matchNode_unary hm
    refine ⟨mem_nodes_changeMatch.mpr rfl, fun x hx => ?_⟩
    rw [mem_nodes_changeMatch.mp hx]
  confined a g root m plan _ hm e := by
    rw [hp] at hm
    obtain ⟨n, v, hn, -, hin, -, rfl⟩ := Pattern.matchNode_unary hm
    exact h a root v plan _ (feeds_of_input (mem_nodes_changeMatch.mpr rfl) hn
      (hin ▸ List.mem_singleton_self v)) e

theorem isLocal_of_chain {p : PatternPass} {k : Kind} {guard : Guard} {size : Nat}
    (hp : p.pattern = ⟨.wrap 2 [k] [.wrap 1 [k] [.input 0 .always] .always] guard, size⟩)
    (hk : k.isAnchor = false)
    (h : ∀ a root w v plan A, A v → p.rewrite a (chainMatch root w v) = .ok plan →
      plan.Confined (·.node = root) A) : p.IsLocal where
  wraps := by
    rw [hp]
    have hall : ∀ l ∈ [k], l.isAnchor = false := List.forall_mem_singleton.mpr hk
    exact ⟨hall, ⟨hall, trivial, trivial⟩, trivial⟩
  reaches g root m hm := by
    rw [hp] at hm
    obtain ⟨n, w, n', v, hn, -, hin, -, -, -, -, rfl⟩ := Pattern.matchNode_chain hm
    refine ⟨mem_nodes_chainMatch.mpr (.inl rfl), fun x hx => ?_⟩
    rcases mem_nodes_chainMatch.mp hx with rfl | rfl
    · exact .refl
    · exact .single (reads_of_input hn (hin ▸ List.mem_singleton_self w))
  confined a g root m plan _ hm e := by
    rw [hp] at hm
    obtain ⟨n, w, n', v, -, -, -, hn', -, hin', -, rfl⟩ := Pattern.matchNode_chain hm
    exact h a root w v plan _ (feeds_of_input (mem_nodes_chainMatch.mpr (.inr rfl)) hn'
      (hin' ▸ List.mem_singleton_self v)) e

namespace Transpose

theorem isLocal_eliminateIdentity : eliminateIdentity.IsLocal := by
  refine isLocal_of_change rfl rfl fun a root v plan A hv e => ?_
  exact confined_of_toPlan (rewrite_change.symm.trans e) (confines_replace rfl hv)

theorem isLocal_collapseChain : collapseChain.IsLocal := by
  refine isLocal_of_chain rfl rfl fun a root w v plan A hv e => ?_
  refine confined_of_toPlan (rewrite_chain.symm.trans e) ?_
  refine .bind confines_ofOption fun first _ => ?_
  refine .bind confines_ofOption fun second _ => ?_
  refine .bind confines_ofOption fun composed _ => ?_
  split
  · exact confines_replace rfl hv
  · refine .bind (confines_makeValue rfl (List.forall_mem_singleton.mpr hv)) fun folded hf => ?_
    exact .bind confines_inherit fun _ _ => confines_replace rfl hf

end Transpose

namespace Reshape

theorem isLocal_eliminateIdentity : eliminateIdentity.IsLocal := by
  refine isLocal_of_change rfl rfl fun a root v plan A hv e => ?_
  refine confined_of_toPlan (rewrite_change.symm.trans e) ?_
  refine .bind confines_spec fun _ _ => ?_
  refine .bind confines_spec fun _ _ => ?_
  exact .bind confines_check fun _ _ => confines_replace rfl hv

theorem isLocal_collapseChain : collapseChain.IsLocal := by
  refine isLocal_of_chain rfl rfl fun a root w v plan A hv e => ?_
  refine confined_of_toPlan (rewrite_chain.symm.trans e) ?_
  refine .bind confines_ofOption fun target _ => ?_
  refine .bind (confines_makeValue rfl (List.forall_mem_singleton.mpr hv)) fun folded hf => ?_
  refine .bind confines_spec fun _ _ => ?_
  refine .bind confines_spec fun _ _ => ?_
  refine .bind confines_check fun _ _ => ?_
  exact .bind confines_inherit fun _ _ => confines_replace rfl hf

end Reshape

theorem reaches_of_leaf {root : NodeId} :
    root ∈ (Match.mk (root.output 0) [⟨0, root.output 0, true⟩]).nodes ∧
      ∀ x ∈ (Match.mk (root.output 0) [⟨0, root.output 0, true⟩]).nodes,
        ReflTransGen g.Reads root x := by
  refine ⟨Match.mem_nodes_singleton.mpr rfl, fun x hx => ?_⟩
  rw [Match.mem_nodes_singleton.mp hx]

theorem ConstantFolding.isLocal_pass : pass.IsLocal where
  wraps := reducing_pass.wraps
  reaches g root m hm := by
    obtain ⟨n, -, -, -, rfl⟩ := Pattern.matchNode_leaf hm
    exact reaches_of_leaf
  confined a g root m plan _ hm e := by
    obtain ⟨n, -, -, -, rfl⟩ := Pattern.matchNode_leaf hm
    dsimp only [pass] at e
    refine confined_of_toPlan e (.bind confines_ofAttempt fun folded _ => ?_)
    refine .bind (confines_makeValue rfl fun _ hx => absurd hx List.not_mem_nil) fun c hc => ?_
    exact .bind confines_inherit fun _ _ => confines_replace rfl hc

namespace BiasFusion

theorem confines_stageBias {w b : Value} {perChannel : Bool} (hb : A b) :
    Confines O A (stageBias a w b perChannel) (·.Within A) :=
  confines_of_sketches fun _ => (sketches_stageBias fun _ => hb).mono fun _ _ h => h.1

theorem isLocal_plain : plain.IsLocal where
  wraps := reducing_plain.wraps
  reaches g root m hm := by
    obtain ⟨n, w, b, d, k, hn, -, hin, -, -, rfl⟩ := matchNode_plain hm
    refine ⟨Match.mem_nodes (b := ⟨4, root.output 0, true⟩) List.mem_cons_self rfl, fun x hx => ?_⟩
    have hx : x = root ∨ x = w.node := by
      rw [Match.mem_nodes_iff] at hx
      simpa [NodeId.output, @eq_comm _ x] using hx
    rcases hx with rfl | rfl
    · exact .refl
    · exact .single ((reads_iff_of_pair hn hin).mpr (.inl rfl))
  confined a g root m plan _ hm e := by
    obtain ⟨n, w, b, d, k, hn, -, hin, ⟨y⟩, -, hm⟩ := matchNode_plain hm
    have hroot : root ∈ m.nodes := by simp [hm, Match.mem_nodes_iff, NodeId.output]
    have hproduct : w.node ∈ m.nodes := by simp [hm, Match.mem_nodes_iff]
    have hd : g.Feeds m.nodes d := feeds_of_input hproduct y.node?_eq (by simp [y.inputs])
    have hk : g.Feeds m.nodes k := feeds_of_input hproduct y.node?_eq (by simp [y.inputs])
    have hb : g.Feeds m.nodes b := feeds_of_input hroot hn (by simp [hin])
    generalize g.Feeds m.nodes = A at hd hk hb ⊢
    subst hm
    refine confined_of_toPlan (rewrite_plain.symm.trans e) ?_
    refine .bind (confines_stageBias hb) fun staged hstaged => ?_
    refine .bind (confines_make rfl ?_) fun fused _ => ?_
    · simp [hstaged, within_graph hd, within_graph hk]
    refine .bind confines_rename fun _ _ => ?_
    exact .bind confines_inherit fun _ _ => confines_replace rfl trivial

theorem isLocal_quantized : quantized.IsLocal where
  wraps := reducing_quantized.wraps
  reaches g root m hm := by
    obtain ⟨n, z, b, n', w, s, d, k, hn, -, hin, hn', -, hin', -, -, -, rfl⟩ :=
      matchNode_quantized hm
    refine ⟨Match.mem_nodes (b := ⟨6, root.output 0, true⟩) List.mem_cons_self rfl, fun x hx => ?_⟩
    have hx : x = root ∨ x = z.node ∨ x = w.node := by
      rw [Match.mem_nodes_iff] at hx
      simpa [NodeId.output, @eq_comm _ x] using hx
    have houter : g.Reads root z.node := (reads_iff_of_pair hn hin).mpr (.inl rfl)
    rcases hx with rfl | rfl | rfl
    · exact .refl
    · exact .single houter
    · exact .head houter (.single ((reads_iff_of_pair hn' hin').mpr (.inl rfl)))
  confined a g root m plan _ hm e := by
    obtain ⟨n, z, b, n', w, s, d, k, hn, -, hin, hn', -, hin', ⟨y⟩, -, -, hm⟩ :=
      matchNode_quantized hm
    have hroot : root ∈ m.nodes := by simp [hm, Match.mem_nodes_iff, NodeId.output]
    have hscaled : z.node ∈ m.nodes := by simp [hm, Match.mem_nodes_iff]
    have hproduct : w.node ∈ m.nodes := by simp [hm, Match.mem_nodes_iff]
    have hd : g.Feeds m.nodes d := feeds_of_input hproduct y.node?_eq (by simp [y.inputs])
    have hk : g.Feeds m.nodes k := feeds_of_input hproduct y.node?_eq (by simp [y.inputs])
    have hs : g.Feeds m.nodes s := feeds_of_input hscaled hn' (by simp [hin'])
    have hb : g.Feeds m.nodes b := feeds_of_input hroot hn (by simp [hin])
    generalize g.Feeds m.nodes = A at hd hk hs hb ⊢
    subst hm
    refine confined_of_toPlan (rewrite_quantized.symm.trans e) ?_
    refine .bind (confines_stageBias hb) fun staged hstaged => ?_
    refine .bind (confines_makeValue rfl ?_) fun fused hfused => ?_
    · simp [hstaged, within_graph hd, within_graph hk]
    refine .bind (confines_make rfl ?_) fun rescaled _ => ?_
    · simp [hfused, within_graph hs]
    refine .bind confines_rename fun _ _ => ?_
    exact .bind confines_inherit fun _ _ => confines_replace rfl trivial

end BiasFusion

namespace UniqueLowering

theorem confines_replaceUsed (hv : g.uses v ≠ [] → O v) (ho : o.Within A) :
    Confines O A (replaceUsed g v o) fun _ => True := by
  unfold replaceUsed
  split
  · rename_i hused
    exact confines_replace (hv (by simpa using hused)) ho
  · exact confines_pure trivial

theorem confines_finish {x : Nat × Nat} {name : String}
    (hO : ∀ port, g.uses (root.output port) ≠ [] → O (root.output port)) :
    Confines O A (finish g root name x) fun _ => True := by
  refine .bind confines_rename fun _ _ => .bind confines_rename fun _ _ => ?_
  refine .bind confines_inherit fun _ _ => ?_
  exact .bind (confines_replaceUsed (hO 0) trivial) fun _ _ => confines_replaceUsed (hO 2) trivial

theorem confined_pass (hnode : a.node? = g.node?) (hm : pass.pattern.matchNode g root = some m)
    (e : pass.rewrite a m = .ok p) :
    p.Confined (fun v => v.node = root ∧ a.uses v ≠ []) (g.Feeds m.nodes) := by
  obtain ⟨n, hn, -, -, hm⟩ := Pattern.matchNode_leaf hm
  have hroot : root ∈ m.nodes := by simp [hm, Match.mem_nodes_iff, NodeId.output]
  have hin : ∀ v ∈ n.inputs, g.Feeds m.nodes v := fun v => feeds_of_input hroot hn
  generalize g.Feeds m.nodes = A at hin ⊢
  subst hm
  rw [← hnode] at hn
  refine confined_of_toPlan ((rewrite_leaf hn).symm.trans e) ?_
  refine .bind confines_ofOption fun parameters _ => ?_
  refine .bind confines_ofOption fun input hinput => ?_
  have hinput := hin input (List.mem_of_mem_head? hinput)
  refine .bind confines_ofOption fun spec _ => ?_
  refine .bind confines_check fun _ _ => ?_
  refine .bind confines_check fun _ _ => ?_
  refine .bind confines_check fun _ _ => ?_
  refine .bind (confines_make rfl (List.forall_mem_singleton.mpr hinput)) fun flat _ => ?_
  refine .bind confines_spec fun flatSpec _ => ?_
  refine .bind (confines_of_sketches fun _ => sketches_results.mono fun _ _ _ => trivial)
    fun x (_ : True) => ?_
  exact confines_finish fun _ hused => ⟨rfl, hused⟩

theorem isLocal_pass : pass.IsLocal where
  wraps := reducing_pass.wraps
  reaches g root m hm := by
    obtain ⟨n, -, -, -, rfl⟩ := Pattern.matchNode_leaf hm
    exact reaches_of_leaf
  confined _ _ _ _ _ hnode hm e := (confined_pass hnode hm e).mono fun _ hv => hv.1

end UniqueLowering

/-- The pattern passes that are built in: two drop an operation, and the others renew it. -/
inductive Matcher where
  | identityTranspose
  | identityReshape
  | renewal (r : Renewal)
deriving DecidableEq

namespace Matcher

def pass : Matcher → PatternPass
  | identityTranspose => Transpose.eliminateIdentity
  | identityReshape => Reshape.eliminateIdentity
  | renewal r => r.pass

theorem isLocal (r : Matcher) : r.pass.IsLocal := by
  cases r with
  | identityTranspose => exact Transpose.isLocal_eliminateIdentity
  | identityReshape => exact Reshape.isLocal_eliminateIdentity
  | renewal r =>
    cases r with
    | transposes => exact Transpose.isLocal_collapseChain
    | reshapes => exact Reshape.isLocal_collapseChain
    | folding => exact ConstantFolding.isLocal_pass
    | bias => exact BiasFusion.isLocal_plain
    | quantizedBias => exact BiasFusion.isLocal_quantized
    | unique => exact UniqueLowering.isLocal_pass

end Matcher

end TensorGraph
