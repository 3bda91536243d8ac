import TensorGraph.Pass.BiasFusion
import TensorGraph.Pass.ConstantFolding
import TensorGraph.Pass.Reshape
import TensorGraph.Pass.Transpose
import TensorGraph.Pass.UniqueLowering
import TensorGraph.Proofs.Rewrite.Staging
import TensorGraph.Proofs.Tensor.Layout

/-! # Rewrites at a match

A rewrite looks up the labels of its pattern and stages its steps from there. At a match that the
pattern gives the lookups are decided: what remains is a program over the bound values, and what
the plan consists of can be read off it.
-/

namespace TensorGraph

open Staging

variable {op : Operation Body} {h : Graph} {root : NodeId} {n n' : Node Body} {v w : Value} {plan : Plan Body}

theorem Staging.ofOption_bind {α γ : Type} {o : Option α} {a : α} {f : α → Staging γ}
    (ho : o = some a) : (ofOption o >>= f) = f a := by
  rw [ho]
  rfl

/-! ### Transposes -/

namespace Transpose

theorem perm?_of_kind (h : op.kind = .transpose) :
    ∃ perm, op = .primitive (.transpose perm) ∧ perm? op = some perm := by
  cases op with
  | subgraph body => cases h
  | primitive p =>
    cases p with
    | transpose perm => exact ⟨perm, rfl, rfl⟩
    | _ => cases h

theorem rewrite_change :
    eliminateIdentity.rewrite h ⟨root.output 0, [⟨1, root.output 0, true⟩, ⟨0, v, false⟩]⟩ =
      toPlan (replace (root.output 0) v) := rfl

theorem eliminateIdentity_eq_ok
    (e : eliminateIdentity.rewrite h
      ⟨root.output 0, [⟨1, root.output 0, true⟩, ⟨0, v, false⟩]⟩ = .ok plan) :
    plan = Plan.empty.replace (root.output 0) v :=
  (Except.ok.inj (rewrite_change.symm.trans e)).symm

theorem rewrite_chain :
    collapseChain.rewrite h
      ⟨root.output 0, [⟨2, root.output 0, true⟩, ⟨1, w, true⟩, ⟨0, v, false⟩]⟩ = toPlan (do
        let first ← ofOption ((h.node? w.node).bind fun n => perm? n.op)
        let second ← ofOption ((h.node? root).bind fun n => perm? n.op)
        let composed ← ofOption (compose? first second)
        if isIdentityPermutation composed then replace (root.output 0) v
        else
          let folded ← makeValue h (Primitive.transpose composed) [v]
          inherit [w.node, root]
          replace (root.output 0) folded) := rfl

/-- The source takes the place of two transposes that cancel out, and one staged transpose that of
any others. -/
theorem collapseChain_eq_ok (hn : h.node? root = some n) (hn' : h.node? w.node = some n')
    (e : collapseChain.rewrite h
      ⟨root.output 0, [⟨2, root.output 0, true⟩, ⟨1, w, true⟩, ⟨0, v, false⟩]⟩ = .ok plan) :
    ∃ first second composed, perm? n'.op = some first ∧ perm? n.op = some second ∧
      compose? first second = some composed ∧
      (isIdentityPermutation composed = true ∧ plan = Plan.empty.replace (root.output 0) v ∨
        ∃ q k, Plan.empty.make h (Primitive.transpose composed) [v] = .ok (q, k) ∧
          plan = (q.inherit [w.node, root]).replace (root.output 0) (.staged k 0)) := by
  have e := rewrite_chain.symm.trans e
  simp only [hn, hn', Option.bind_some, toPlan_eq_ok_iff, bind_ok_iff,
    ofOption_eq_ok_iff] at e
  obtain ⟨first, _, ⟨hfirst, rfl⟩, second, _, ⟨hsecond, rfl⟩, composed, _, ⟨hcomposed, rfl⟩, e⟩ := e
  refine ⟨first, second, composed, hfirst, hsecond, hcomposed, ?_⟩
  split at e
  · rename_i hid
    exact .inl ⟨hid, (replace_eq_ok_iff.mp e)⟩
  · simp only [bind_ok_iff, makeValue_eq_ok_iff, inherit_eq_ok_iff,
      replace_eq_ok_iff] at e
    obtain ⟨_, q, ⟨k, hmake, rfl⟩, _, _, rfl, rfl⟩ := e
    exact .inr ⟨q, k, hmake, rfl⟩

end Transpose

/-! ### Reshapes -/

namespace Reshape

theorem target?_of_kind (h : op.kind = .reshape) : ∃ target specialZero,
    op = .primitive (.reshape target specialZero) ∧ target? op = some target := by
  cases op with
  | subgraph body => cases h
  | primitive p =>
    cases p with
    | reshape target specialZero => exact ⟨target, specialZero, rfl, rfl⟩
    | _ => cases h

theorem selfContained_of_isSelfContained {target : List Int} {specialZero : Bool}
    (h : isSelfContained (.primitive (.reshape target specialZero)) = true) :
    SelfContained target specialZero := by
  intro hz
  simpa [isSelfContained, hz] using h

theorem rewrite_change :
    eliminateIdentity.rewrite h ⟨root.output 0, [⟨1, root.output 0, true⟩, ⟨0, v, false⟩]⟩ =
      toPlan (do
        let before ← spec h v
        let after ← spec h (root.output 0)
        check (before.shape.isStatic && before == after)
        replace (root.output 0) v) := rfl

/-- What a dropped reshape leads from and to is the same static spec. -/
theorem eliminateIdentity_eq_ok
    (e : eliminateIdentity.rewrite h
      ⟨root.output 0, [⟨1, root.output 0, true⟩, ⟨0, v, false⟩]⟩ = .ok plan) :
    ∃ s, h.spec? v = some s ∧ h.spec? (root.output 0) = some s ∧ s.shape.isStatic = true ∧
      plan = Plan.empty.replace (root.output 0) v := by
  have e := rewrite_change.symm.trans e
  simp only [toPlan_eq_ok_iff, bind_ok_iff, spec_eq_ok_iff, check_eq_ok_iff,
    replace_eq_ok_iff, Bool.and_eq_true, beq_iff_eq] at e
  obtain ⟨before, _, ⟨hbefore, rfl⟩, _, _, ⟨hafter, rfl⟩, _, _, ⟨⟨hstatic, rfl⟩, rfl⟩, rfl⟩ := e
  exact ⟨before, hbefore, hafter, hstatic, rfl⟩

theorem rewrite_chain :
    collapseChain.rewrite h
      ⟨root.output 0, [⟨2, root.output 0, true⟩, ⟨1, w, true⟩, ⟨0, v, false⟩]⟩ = toPlan (do
        let target ← ofOption ((h.node? root).bind fun n => target? n.op)
        let folded ← makeValue h (Primitive.reshape target false) [v]
        let direct ← spec h folded
        let current ← spec h (root.output 0)
        check (direct == current)
        inherit [root]
        replace (root.output 0) folded) := rfl

/-- What is staged for two reshapes has the spec of the second. -/
theorem collapseChain_eq_ok (hn : h.node? root = some n)
    (e : collapseChain.rewrite h
      ⟨root.output 0, [⟨2, root.output 0, true⟩, ⟨1, w, true⟩, ⟨0, v, false⟩]⟩ = .ok plan) :
    ∃ target q k s, target? n.op = some target ∧
      Plan.empty.make h (Primitive.reshape target false) [v] = .ok (q, k) ∧
      q.spec? h (.staged k 0) = some s ∧ h.spec? (root.output 0) = some s ∧
      plan = (q.inherit [root]).replace (root.output 0) (.staged k 0) := by
  have e := rewrite_chain.symm.trans e
  simp only [hn, Option.bind_some, toPlan_eq_ok_iff, bind_ok_iff, ofOption_eq_ok_iff,
    makeValue_eq_ok_iff, spec_eq_ok_iff, check_eq_ok_iff, inherit_eq_ok_iff,
    replace_eq_ok_iff, beq_iff_eq] at e
  obtain ⟨target, _, ⟨htarget, rfl⟩, _, q, ⟨k, hmake, rfl⟩, direct, _, ⟨hdirect, hq⟩, _, _,
    ⟨hcurrent, rfl⟩, _, _, ⟨rfl, rfl⟩, _, _, rfl, rfl⟩ := e
  obtain rfl := hq
  exact ⟨target, _, k, direct, htarget, hmake, hdirect, hcurrent, rfl⟩

end Reshape

/-! ### Constants -/

namespace ConstantFolding

theorem folded_eq_ok_iff {id : NodeId} {c : Tensor} : folded h id = .ok c ↔
    ∃ n p operands, h.node? id = some n ∧ n.op = .primitive p ∧
      n.inputs.mapM (constant? h) = some operands ∧ p.fold operands = .ok c := by
  simp only [folded, bind_eq_ok_iff, Attempt.ofOption_eq_ok_iff]
  constructor
  · rintro ⟨n, hn, operands, hoperands, e⟩
    split at e
    · rename_i p hop
      exact ⟨n, p, operands, hn, hop, hoperands, e⟩
    · cases e
  · rintro ⟨n, p, operands, hn, hop, hoperands, e⟩
    refine ⟨n, hn, operands, hoperands, ?_⟩
    rwa [hop]

/-- A constant is staged without inputs for an operation that can be folded. -/
theorem rewrite_eq_ok {m : Match} (e : pass.rewrite h m = .ok plan) :
    ∃ c q k, folded h m.root.node = .ok c ∧
      Plan.empty.make h (Primitive.constant c) [] = .ok (q, k) ∧
      plan = (q.inherit [m.root.node]).replace (m.root.node.output 0) (.staged k 0) := by
  simp only [pass, toPlan_eq_ok_iff, bind_ok_iff, ofAttempt_eq_ok_iff,
    makeValue_eq_ok_iff, inherit_eq_ok_iff, replace_eq_ok_iff] at e
  obtain ⟨c, _, ⟨hfolded, rfl⟩, _, q, ⟨k, hmake, rfl⟩, _, _, rfl, rfl⟩ := e
  exact ⟨c, q, k, hfolded, hmake, rfl⟩

end ConstantFolding

/-! ### Products with a bias -/

namespace BiasFusion

variable {b d k s z : Value}

theorem rewrite_plain :
    plain.rewrite h ⟨root.output 0, [⟨4, root.output 0, true⟩, ⟨2, w, true⟩, ⟨0, d, false⟩,
      ⟨1, k, false⟩, ⟨3, b, false⟩]⟩ = toPlan (do
        let staged ← stageBias h w b false
        let fused ← make h Primitive.fullyConnected [d, k, staged]
        rename fused (nameOf h (root.output 0))
        inherit [w.node, root]
        replace (root.output 0) (.staged fused 0)) := rfl

theorem plain_eq_ok
    (e : plain.rewrite h ⟨root.output 0, [⟨4, root.output 0, true⟩, ⟨2, w, true⟩, ⟨0, d, false⟩,
      ⟨1, k, false⟩, ⟨3, b, false⟩]⟩ = .ok plan) :
    ∃ x q₁ i q₂ q₃, stageBias h w b false .empty = .ok (x, q₁) ∧
      make h Primitive.fullyConnected [d, k, x] q₁ = .ok (i, q₂) ∧
      rename i (nameOf h (root.output 0)) q₂ = .ok ((), q₃) ∧
      plan = (q₃.inherit [w.node, root]).replace (root.output 0) (.staged i 0) := by
  have e := rewrite_plain.symm.trans e
  simp only [toPlan_eq_ok_iff, bind_ok_iff, inherit_eq_ok_iff, replace_eq_ok_iff] at e
  obtain ⟨x, q₁, hstage, i, q₂, hmake, _, q₃, hrename, _, _, rfl, rfl⟩ := e
  exact ⟨x, q₁, i, q₂, q₃, hstage, hmake, hrename, rfl⟩

theorem rewrite_quantized :
    quantized.rewrite h ⟨root.output 0, [⟨6, root.output 0, true⟩, ⟨4, z, true⟩, ⟨2, w, true⟩,
      ⟨0, d, false⟩, ⟨1, k, false⟩, ⟨3, s, false⟩, ⟨5, b, false⟩]⟩ = toPlan (do
        let staged ← stageBias h w b true
        let fused ← makeValue h Primitive.fullyConnected [d, k, staged]
        let rescaled ← make h Primitive.multiply [fused, s]
        rename rescaled (nameOf h (root.output 0))
        inherit [w.node, z.node, root]
        replace (root.output 0) (.staged rescaled 0)) := rfl

theorem quantized_eq_ok
    (e : quantized.rewrite h ⟨root.output 0, [⟨6, root.output 0, true⟩, ⟨4, z, true⟩, ⟨2, w, true⟩,
      ⟨0, d, false⟩, ⟨1, k, false⟩, ⟨3, s, false⟩, ⟨5, b, false⟩]⟩ = .ok plan) :
    ∃ x q₁ y q₂ i q₃ q₄, stageBias h w b true .empty = .ok (x, q₁) ∧
      makeValue h Primitive.fullyConnected [d, k, x] q₁ = .ok (y, q₂) ∧
      make h Primitive.multiply [y, s] q₂ = .ok (i, q₃) ∧
      rename i (nameOf h (root.output 0)) q₃ = .ok ((), q₄) ∧
      plan = (q₄.inherit [w.node, z.node, root]).replace (root.output 0) (.staged i 0) := by
  have e := rewrite_quantized.symm.trans e
  simp only [toPlan_eq_ok_iff, bind_ok_iff, inherit_eq_ok_iff, replace_eq_ok_iff] at e
  obtain ⟨x, q₁, hstage, y, q₂, hmake, i, q₃, hscale, _, q₄, hrename, _, _, rfl, rfl⟩ := e
  exact ⟨x, q₁, y, q₂, i, q₃, q₄, hstage, hmake, hscale, hrename, rfl⟩

end BiasFusion

/-! ### Unique elements -/

namespace UniqueLowering

/-- The results of a lowering after the input is flattened, if that is known to have one element and
if it is not. -/
def results (g : Graph) (elementType indexType : ElementType) (single : Bool) (flat : Nat) :
    Staging (Nat × Nat) :=
  if single then do
    return (flat, ← Staging.make g (Primitive.constant (.splat indexType [1] 0)) [])
  else lower g elementType indexType (.staged flat 0)

def replaceUsed (g : Graph) (v : Value) (x : Operand) : Staging Unit :=
  if !(g.uses v).isEmpty then replace v x else pure ()

/-- The last steps of a lowering, once both results are staged. -/
def finish (g : Graph) (root : NodeId) (name : String) (x : Nat × Nat) : Staging Unit := do
  rename x.1 (name ++ ".0")
  rename x.2 (name ++ ".2")
  inherit [root]
  replaceUsed g (root.output 0) (.staged x.1 0)
  replaceUsed g (root.output 2) (.staged x.2 0)

theorem finish_eq (x : Nat × Nat) (name : String) : finish h root name x = (do
    rename x.1 (name ++ ".0")
    rename x.2 (name ++ ".2")
    inherit [root]
    if !(h.uses (root.output 0)).isEmpty then replace (root.output 0) (.staged x.1 0)
    if !(h.uses (root.output 2)).isEmpty then replace (root.output 2) (.staged x.2 0)) := by
  unfold finish replaceUsed
  refine bind_congr fun _ => bind_congr fun _ => bind_congr fun _ => ?_
  split
  · rfl
  · rfl

theorem rewrite_leaf {bindings : Bindings} (hn : h.node? root = some n) :
    pass.rewrite h ⟨root.output 0, bindings⟩ = toPlan (do
      let (indexType, axis) ← ofOption (parameters? n.op)
      let v ← ofOption n.inputs.head?
      let s ← ofOption (h.spec? v)
      check (isFlat axis s && s.elementType != .boolean)
      check ((h.uses (root.output 1)).isEmpty && (h.uses (root.output 3)).isEmpty)
      check (!(h.uses (root.output 0)).isEmpty || !(h.uses (root.output 2)).isEmpty)
      let flat ← make h (Primitive.reshape [-1] false) [v]
      let flatSpec ← spec h (.staged flat 0)
      finish h root n.name
        (← results h s.elementType indexType (flatSpec.shape.elementCount? = some 1) flat)) := by
  refine congrArg toPlan ((ofOption_bind hn).trans ?_)
  refine bind_congr fun ⟨indexType, axis⟩ => ?_
  refine bind_congr fun v => bind_congr fun s => bind_congr fun _ => bind_congr fun _ =>
    bind_congr fun _ => bind_congr fun flat => bind_congr fun flatSpec => ?_
  by_cases hone : flatSpec.shape.elementCount? = some 1
  · rw [results, decide_eq_true hone, if_pos rfl, bind_assoc]
    refine (if_pos hone).trans ?_
    exact bind_congr fun place => (finish_eq (flat, place) n.name).symm
  · rw [results, decide_eq_false hone, if_neg Bool.false_ne_true]
    refine (if_neg hone).trans ?_
    exact bind_congr fun x => (finish_eq x n.name).symm

/-- The plans that a lowering goes through. -/
theorem rewrite_eq_ok {bindings : Bindings} (hn : h.node? root = some n)
    (e : pass.rewrite h ⟨root.output 0, bindings⟩ = .ok plan) :
    ∃ indexType axis v s i q flat x q', parameters? n.op = some (indexType, axis) ∧
      n.inputs.head? = some v ∧ h.spec? v = some s ∧ isFlat axis s = true ∧
      make h (Primitive.reshape [-1] false) [v] .empty = .ok (i, q) ∧
      q.spec? h (.staged i 0) = some flat ∧
      results h s.elementType indexType (flat.shape.elementCount? = some 1) i q = .ok (x, q') ∧
      finish h root n.name x q' = .ok ((), plan) := by
  have e := (rewrite_leaf hn).symm.trans e
  simp only [toPlan_eq_ok_iff, bind_ok_iff, ofOption_eq_ok_iff, spec_eq_ok_iff,
    check_eq_ok_iff, Bool.and_eq_true] at e
  obtain ⟨⟨indexType, axis⟩, _, ⟨hop, rfl⟩, v, _, ⟨hhead, rfl⟩, s, _, ⟨hspec, rfl⟩, _, _,
    ⟨⟨hflat, -⟩, rfl⟩, _, _, ⟨-, rfl⟩, _, _, ⟨-, rfl⟩, i, q, hmake, flat, _, ⟨hflatSpec, hq⟩,
    x, q', hresults, hfinish⟩ := e
  obtain rfl := hq
  exact ⟨indexType, axis, v, s, i, _, flat, x, q', hop, hhead, hspec, hflat, hmake, hflatSpec,
    hresults, hfinish⟩

end UniqueLowering

end TensorGraph
