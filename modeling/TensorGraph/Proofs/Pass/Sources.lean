import TensorGraph.Pass.Standard
import TensorGraph.Proofs.Pass.Lowering
import TensorGraph.Proofs.Pass.Substitution

/-! # Sources of annotations

From which nodes each rewrite takes the annotations of what it stages, and which of the nodes that
it releases it overlooks. The rewrites name the nodes that they matched. A collapsed reshape is
named only with the outer one of its chain, and nobody names the constants that a folded operation
reads or the bias that is flattened.
-/

namespace TensorGraph

open Relation Arena

variable {a g : Graph} {root x : NodeId} {m : Match} {p : Plan Body}

/-! ### Chains of two operations -/

section Chain

variable {n n' : Node Body} {v w : Value} {q : Plan Body} {i port : Nat} {sources : List NodeId}

def chainMatch (root : NodeId) (w v : Value) : Match :=
  ⟨root.output 0, [⟨2, root.output 0, true⟩, ⟨1, w, true⟩, ⟨0, v, false⟩]⟩

theorem mem_nodes_chainMatch : x ∈ (chainMatch root w v).nodes ↔ x = root ∨ x = w.node := by
  rw [Match.mem_nodes_iff]
  simp [chainMatch, NodeId.output, @eq_comm _ x]

theorem accounts_of_chain (ha : a.WellFormed) (hp : p.Accepted a)
    (hlive : ∃ y ∈ (a.rewire p).2, (residue a (chainMatch root w v).nodes p).contains y = true)
    (e : p = (q.inherit sources).replace (root.output 0) (.staged i port))
    (hn : a.node? root = some n) (hin : n.inputs = [w]) (hn' : a.node? w.node = some n')
    (hin' : n'.inputs = [v]) (hq : q.Sketch (· = v)) (hext : Plan.empty.Extends q)
    (htakes : q.Takes (.staged i port) (.graph v)) (hroot : root ∈ sources)
    (hsources : ∀ s ∈ sources, s = root ∨ s = w.node) :
    Accounts a root (chainMatch root w v).nodes p sources (· = w.node) := by
  have houter : a.Reads root w.node := reads_of_input hn (hin ▸ List.mem_singleton_self w)
  have hinner : a.Reads w.node v.node := reads_of_input hn' (hin' ▸ List.mem_singleton_self v)
  refine accounts_of_single ha hp hlive e ?_ hq hext ?_ ?_ (.inl hroot) ?_ ?_
  · intro x hx
    rcases mem_nodes_chainMatch.mp hx with rfl | rfl
    · exact .refl
    · exact .single houter
  · rintro u rfl
    exact .single htakes
  · rintro u rfl
    exact .head houter (.single hinner)
  · intro x hx
    rcases mem_nodes_chainMatch.mp hx with rfl | rfl
    · exact .inl hroot
    · exact .inr rfl
  · intro x y hy hread
    have hchain : y = root ∨ y = w.node := hy.elim (hsources y) .inr
    rcases hchain with rfl | rfl
    · obtain ⟨u, hu, rfl⟩ := (reads_iff_of_node? hn).mp hread
      rw [hin] at hu
      exact .inl (.inr (congrArg Value.node (List.mem_singleton.mp hu)))
    · obtain ⟨u, hu, rfl⟩ := (reads_iff_of_node? hn').mp hread
      rw [hin'] at hu
      exact .inr ⟨u, List.mem_singleton.mp hu, rfl⟩

theorem sketch_of_source {s : Primitive} (hs : s.kind.isAnchor = false)
    (e : Plan.empty.make a (.primitive s) [.graph v] = .ok (q, i)) :
    q.Sketch (· = v) ∧ Plan.empty.Extends q ∧ q.Takes (.staged i 0) (.graph v) := by
  obtain ⟨hq, hext, htakes⟩ := Staging.sketches_make (A := (· = v)) hs
    (List.forall_mem_singleton.mpr (within_graph rfl)) (Plan.sketch_empty _) i q
    (Staging.make_eq_ok_iff.mpr e)
  exact ⟨hq, hext, htakes 0 _ List.mem_cons_self⟩

section Rewrites

variable (ha : a.WellFormed) (hnode : a.node? = g.node?)
include ha hnode

theorem Transpose.accounts (hm : collapseChain.pattern.matchNode g root = some m)
    (e : collapseChain.rewrite a m = .ok p) (hp : p.Accepted a)
    (hlive : ∃ y ∈ (a.rewire p).2, (residue a m.nodes p).contains y = true) :
    Accounts a root m.nodes p m.nodes fun _ => False := by
  obtain ⟨n, w, n', v, hn, -, hin, hn', -, hin', -, rfl⟩ := Pattern.matchNode_chain hm
  rw [← hnode] at hn hn'
  obtain ⟨-, -, composed, -, -, -, ⟨-, rfl⟩ | ⟨q, k, hmake, rfl⟩⟩ :=
    Transpose.collapseChain_eq_ok hn hn' e
  · -- nothing is staged then
    obtain ⟨y, hy, -⟩ := hlive
    have hlength := (rewired_rewire ha hp).length
    exact absurd hy (List.eq_nil_of_length_eq_zero hlength ▸ List.not_mem_nil)
  · obtain ⟨hq, hext, htakes⟩ := sketch_of_source rfl hmake
    have haccounts := accounts_of_chain ha hp hlive rfl hn hin hn' hin' hq hext htakes
      (List.mem_cons_of_mem _ List.mem_cons_self) (by simp [or_comm])
    have hnodes (x : NodeId) : x ∈ [w.node, root] ↔ x ∈ (chainMatch root w v).nodes := by
      rw [mem_nodes_chainMatch]
      simp [or_comm]
    refine haccounts.mono hnodes fun x hx => .inl ((hnodes x).mp ?_)
    exact hx ▸ List.mem_cons_self

theorem Reshape.accounts (hm : collapseChain.pattern.matchNode g root = some m)
    (e : collapseChain.rewrite a m = .ok p) (hp : p.Accepted a)
    (hlive : ∃ y ∈ (a.rewire p).2, (residue a m.nodes p).contains y = true) :
    Accounts a root m.nodes p [root] fun x => x ∈ m.nodes ∧ x ≠ root := by
  obtain ⟨n, w, n', v, hn, -, hin, hn', -, hin', -, rfl⟩ := Pattern.matchNode_chain hm
  rw [← hnode] at hn hn'
  obtain ⟨target, q, k, -, -, hmake, -, -, rfl⟩ := Reshape.collapseChain_eq_ok hn e
  obtain ⟨hq, hext, htakes⟩ := sketch_of_source rfl hmake
  have haccounts := accounts_of_chain ha hp hlive rfl hn hin hn' hin' hq hext htakes
    (List.mem_singleton_self root) (List.forall_mem_singleton.mpr (.inl rfl))
  refine haccounts.mono (fun _ => .rfl) fun x hx => ?_
  by_cases hroot : x = root
  · exact .inl (hroot ▸ List.mem_singleton_self x)
  · exact .inr ⟨mem_nodes_chainMatch.mpr (.inr hx), hroot⟩

end Rewrites

end Chain

/-! ### Folded operations -/

/-- A constant stands in for everything that the folded operation depends on. -/
theorem ConstantFolding.accounts (ha : a.WellFormed)
    (hm : pass.pattern.matchNode g root = some m) (e : pass.rewrite a m = .ok p)
    (hp : p.Accepted a) (hlive : ∃ y ∈ (a.rewire p).2, (residue a m.nodes p).contains y = true) :
    Accounts a root m.nodes p m.nodes fun x => TransGen a.Reads root x := by
  obtain ⟨n, -, -, -, rfl⟩ := Pattern.matchNode_leaf hm
  obtain ⟨c, q, k, -, hmake, rfl⟩ := rewrite_eq_ok e
  obtain ⟨hq, hext, -⟩ := Staging.sketches_make (A := fun _ => False) rfl
    (fun _ hx => absurd hx List.not_mem_nil) (Plan.sketch_empty _) k q
    (Staging.make_eq_ok_iff.mpr hmake)
  have hnodes (x : NodeId) :
      x ∈ [root] ↔ x ∈ (Match.mk (root.output 0) [⟨0, root.output 0, true⟩]).nodes :=
    List.mem_singleton.trans Match.mem_nodes_singleton.symm
  refine (accounts_of_single ha hp hlive rfl ?_ hq hext (fun v hv => hv.elim)
    (fun v hv => hv.elim) (.inl (List.mem_singleton_self root)) ?_ ?_).mono hnodes
    fun x hx => .inr hx
  · intro x hx
    obtain rfl := List.mem_singleton.mp ((hnodes x).mpr hx)
    exact .refl
  · exact fun x hx => .inl ((hnodes x).mpr hx)
  · rintro x y (hy | hy) hread
    · rw [List.mem_singleton.mp hy] at hread
      exact .inl (.inr (.single hread))
    · exact .inl (.inr (hy.tail hread))

/-! ### Products with a bias -/

namespace BiasFusion

/-- A flat constant is staged in the place of a constant with several axes. -/
def Flattened (g : Graph) (b : Value) : Prop :=
  ∃ t, (g.node? b.node).bind (fun n => n.op.constant?) = some t ∧ 2 ≤ t.sizes.length ∧
    (t.reshape? [-1] true).isSome = true

section Steps

variable {A : Value → Prop} {w d k b : Value} {perChannel : Bool}

theorem sketches_stageBias (hb : ¬ Flattened a b → A b) :
    Staging.Sketches A p (stageBias a w b perChannel) fun x q =>
      x.Within A ∧ (¬ Flattened a b → ReflTransGen q.Takes x (.graph b)) := by
  refine .bind (.refl _) Staging.sketches_ofOption ?_
  rintro value q - ⟨hvalue, rfl⟩
  refine .bind (.refl _) Staging.sketches_ofOption ?_
  rintro channels q - ⟨-, rfl⟩
  refine .bind (.refl _) Staging.sketches_check ?_
  rintro - q - ⟨-, rfl⟩
  have hiff : Flattened a b ↔
      2 ≤ value.sizes.length ∧ (value.reshape? [-1] true).isSome = true := by
    constructor
    · rintro ⟨t, ht, h⟩
      obtain rfl := Option.some.inj (hvalue.symm.trans ht)
      exact h
    · exact fun h => ⟨value, hvalue, h⟩
  split
  · rename_i hshort
    have hnot : ¬ Flattened a b := fun h => by
      have hlong := (hiff.mp h).1
      omega
    exact Staging.sketches_pure ⟨hb hnot, fun _ => .refl⟩
  · rename_i hlong
    refine .bind (.refl _) Staging.sketches_ofAttempt ?_
    rintro folded q - ⟨hfolded, rfl⟩
    split
    · rename_i flat
      have hflat : value.reshape? [-1] true = some flat :=
        (Primitive.fold_eq_ok_iff.mp (Attempt.optional_eq_some_iff.mp hfolded)).2
      have h : Flattened a b := hiff.mpr ⟨by omega, Option.isSome_of_eq_some hflat⟩
      refine (Staging.sketches_makeValue rfl fun _ hx => absurd hx List.not_mem_nil).mono ?_
      exact fun x q hx => ⟨hx.1, fun hnot => absurd h hnot⟩
    · have hflat : value.reshape? [-1] true = none :=
        (Primitive.fold_eq_declined_iff.mp (Attempt.optional_eq_none_iff.mp hfolded)).2
      have hnot : ¬ Flattened a b := fun h => by
        have hsome := (hiff.mp h).2
        rw [hflat] at hsome
        cases hsome
      refine (Staging.sketches_makeValue rfl
        (List.forall_mem_singleton.mpr (within_graph (hb hnot)))).mono ?_
      exact fun x q hx => ⟨hx.1, fun _ => .single (hx.2 _ List.mem_cons_self)⟩

/-- The product with a bias takes the operands of the product, and the bias unless it is
flattened. -/
theorem sketches_fused (hd : A d) (hk : A k) (hb : ¬ Flattened a b → A b) :
    Staging.Sketches A p (stageBias a w b perChannel >>= fun x =>
        Staging.make a Primitive.fullyConnected [d, k, x]) fun i q =>
      ∀ v, v ∈ [d, k] ∨ v = b ∧ ¬ Flattened a b →
        ReflTransGen q.Takes (.staged i 0) (.graph v) := by
  intro hp i r e
  obtain ⟨x, q, hstage, hmake⟩ := Staging.bind_ok_iff.mp e
  obtain ⟨hq, hext, hx, hreach⟩ := sketches_stageBias hb hp x q hstage
  obtain ⟨hr, hext', htakes⟩ := Staging.sketches_make rfl (List.forall_mem_cons.mpr
    ⟨within_graph hd, List.forall_mem_cons.mpr ⟨within_graph hk, List.forall_mem_singleton.mpr hx⟩⟩)
    hq i r hmake
  refine ⟨hr, hext.trans hext', ?_⟩
  rintro v (hv | ⟨rfl, hnot⟩)
  · refine .single (htakes 0 _ ?_)
    rcases List.mem_pair.mp hv with rfl | rfl <;> simp
  · exact .head (htakes 0 x (by simp)) (hext'.reaches (hreach hnot))

end Steps

theorem accounts_of_fusion {q : Plan Body} {sources nodes : List NodeId} {kept : List Value}
    {b : Value} {i : Nat} (ha : a.WellFormed) (hp : p.Accepted a)
    (hlive : ∃ y ∈ (a.rewire p).2, (residue a nodes p).contains y = true)
    (e : p = (q.inherit sources).replace (root.output 0) (.staged i 0))
    (hnodes : ∀ u, u ∈ sources ↔ u ∈ nodes) (hroot : root ∈ sources)
    (hreach : ∀ u ∈ sources, ReflTransGen a.Reads root u)
    (hread : ∀ y ∈ sources, ∀ x, a.Reads y x → x ∈ sources ∨ ∃ v ∈ b :: kept, v.node = x)
    (hkept : ∀ v ∈ b :: kept, ∃ y ∈ sources, a.Reads y v.node)
    (hq : q.Sketch fun v => v ∈ kept ∨ v = b ∧ ¬ Flattened a b) (hext : Plan.empty.Extends q)
    (hneeds : ∀ v, v ∈ kept ∨ v = b ∧ ¬ Flattened a b →
      ReflTransGen q.Takes (.staged i 0) (.graph v)) :
    Accounts a root nodes p nodes fun x => Flattened a b ∧ ReflTransGen a.Reads b.node x := by
  suffices h : Accounts a root nodes p sources fun x =>
      Flattened a b ∧ ReflTransGen a.Reads b.node x from h.mono hnodes fun x hx => .inr hx
  refine accounts_of_single ha hp hlive e (fun u hu => hreach u ((hnodes u).mpr hu)) hq hext
    hneeds ?_ (.inl hroot) (fun u hu => .inl ((hnodes u).mpr hu)) ?_
  · intro v hv
    obtain ⟨y, hy, hyv⟩ := hkept v (List.mem_cons.mpr (hv.symm.imp_left And.left))
    exact .tail' (hreach y hy) hyv
  · rintro x y (hy | ⟨hflat, hy⟩) hyx
    · rcases hread y hy x hyx with hx | ⟨v, hv, rfl⟩
      · exact .inl (.inl hx)
      · by_cases hflat : Flattened a b ∧ v = b
        · obtain ⟨hflat, rfl⟩ := hflat
          exact .inl (.inr ⟨hflat, .refl⟩)
        · refine .inr ⟨v, ?_, rfl⟩
          rcases List.mem_cons.mp hv with rfl | hv
          · exact .inr ⟨rfl, fun h => hflat ⟨h, rfl⟩⟩
          · exact .inl hv
    · exact .inl (.inr ⟨hflat, hy.tail hyx⟩)

section Rewrites

variable (ha : a.WellFormed) (hnode : a.node? = g.node?)
include ha hnode

theorem accounts_plain (hm : plain.pattern.matchNode g root = some m)
    (e : plain.rewrite a m = .ok p) (hp : p.Accepted a)
    (hlive : ∃ y ∈ (a.rewire p).2, (residue a m.nodes p).contains y = true) :
    ∃ b, m.value? 3 = some b ∧ Accounts a root m.nodes p m.nodes fun x =>
      Flattened a b ∧ ReflTransGen a.Reads b.node x := by
  obtain ⟨n, w, b, d, k, hn, -, hin, ⟨y⟩, -, rfl⟩ := matchNode_plain hm
  rw [← hnode] at hn
  replace y : Product a w d k := ⟨y.node, hnode ▸ y.node?_eq, y.kind, y.inputs⟩
  refine ⟨b, rfl, ?_⟩
  obtain ⟨x, q₁, i, q₂, q₃, hstage, hmake, hrename, rfl⟩ := plain_eq_ok e
  obtain ⟨hq₂, hext₂, hreach⟩ := sketches_fused (A := fun v => v ∈ [d, k] ∨ v = b ∧ ¬ Flattened a b)
    (.inl (by simp)) (.inl (by simp)) (fun h => .inr ⟨rfl, h⟩) (Plan.sketch_empty _) i q₂
    (Staging.bind_ok_iff.mpr ⟨x, q₁, hstage, hmake⟩)
  obtain ⟨hq₃, hext₃, -⟩ := Staging.sketches_rename hq₂ _ q₃ hrename
  have hreads (u : NodeId) := reads_iff_of_pair (y := u) hn hin
  have hreads' (u : NodeId) := reads_iff_of_pair (y := u) y.node?_eq y.inputs
  refine accounts_of_fusion ha hp hlive rfl (fun u => ?_) (by simp) ?_ ?_ ?_ hq₃
    (hext₂.trans hext₃) fun v hv => hext₃.reaches (hreach v hv)
  · rw [Match.mem_nodes_iff]
    simp [NodeId.output, @eq_comm _ u, or_comm]
  · intro u hu
    rcases List.mem_pair.mp hu with rfl | rfl
    · exact .single ((hreads _).mpr (.inl rfl))
    · exact .refl
  · intro u hu z hz
    rcases List.mem_pair.mp hu with rfl | rfl
    · rcases (hreads' z).mp hz with rfl | rfl <;> simp
    · rcases (hreads z).mp hz with rfl | rfl <;> simp
  · intro v hv
    rcases List.mem_cons.mp hv with rfl | hv
    · exact ⟨root, by simp, (hreads _).mpr (.inr rfl)⟩
    · refine ⟨w.node, List.mem_cons_self, (hreads' _).mpr ?_⟩
      rcases List.mem_pair.mp hv with rfl | rfl <;> simp

theorem accounts_quantized (hm : quantized.pattern.matchNode g root = some m)
    (e : quantized.rewrite a m = .ok p) (hp : p.Accepted a)
    (hlive : ∃ y ∈ (a.rewire p).2, (residue a m.nodes p).contains y = true) :
    ∃ b, m.value? 5 = some b ∧ Accounts a root m.nodes p m.nodes fun x =>
      Flattened a b ∧ ReflTransGen a.Reads b.node x := by
  obtain ⟨n, z, b, n', w, s, d, k, hn, -, hin, hn', -, hin', ⟨y⟩, -, -, rfl⟩ :=
    matchNode_quantized hm
  rw [← hnode] at hn hn'
  replace y : Product a w d k := ⟨y.node, hnode ▸ y.node?_eq, y.kind, y.inputs⟩
  refine ⟨b, rfl, ?_⟩
  obtain ⟨x, q₁, y', q₂, j, q₃, q₄, hstage, hfused, hscale, hrename, rfl⟩ := quantized_eq_ok e
  obtain ⟨i, hmake, rfl⟩ := Staging.makeValue_eq_ok_iff.mp hfused
  obtain ⟨hq₂, hext₂, hreach⟩ := sketches_fused
    (A := fun v => v ∈ [d, k, s] ∨ v = b ∧ ¬ Flattened a b) (.inl (by simp)) (.inl (by simp))
    (fun h => .inr ⟨rfl, h⟩) (Plan.sketch_empty _) i q₂
    (Staging.bind_ok_iff.mpr ⟨x, q₁, hstage, Staging.make_eq_ok_iff.mpr hmake⟩)
  obtain ⟨hq₃, hext₃, htakes⟩ := Staging.sketches_make rfl (by simp [Operand.Within])
    hq₂ j q₃ hscale
  obtain ⟨hq₄, hext₄, -⟩ := Staging.sketches_rename hq₃ _ q₄ hrename
  have hneeds (v : Value) (hv : v ∈ [d, k, s] ∨ v = b ∧ ¬ Flattened a b) :
      ReflTransGen q₃.Takes (.staged j 0) (.graph v) := by
    by_cases hvs : v = s
    · exact .single (htakes 0 _ (by simp [hvs]))
    · have hrest : v ∈ [d, k] ∨ v = b ∧ ¬ Flattened a b := by simpa [hvs] using hv
      exact .head (htakes 0 _ List.mem_cons_self) (hext₃.reaches (hreach v hrest))
  have hreads (u : NodeId) := reads_iff_of_pair (y := u) hn hin
  have hreads' (u : NodeId) := reads_iff_of_pair (y := u) hn' hin'
  have hreads'' (u : NodeId) := reads_iff_of_pair (y := u) y.node?_eq y.inputs
  have hz : a.Reads root z.node := (hreads _).mpr (.inl rfl)
  have hw : a.Reads z.node w.node := (hreads' _).mpr (.inl rfl)
  refine accounts_of_fusion ha hp hlive rfl (fun u => ?_) (by simp) ?_ ?_ ?_ hq₄
    (hext₂.trans (hext₃.trans hext₄)) fun v hv => hext₄.reaches (hneeds v hv)
  · rw [Match.mem_nodes_iff]
    simp [NodeId.output, @eq_comm _ u, or_comm, or_left_comm]
  · intro u hu
    rcases List.mem_cons.mp hu with rfl | hu
    · exact .head hz (.single hw)
    · rcases List.mem_pair.mp hu with rfl | rfl
      · exact .single hz
      · exact .refl
  · intro u hu t ht
    rcases List.mem_cons.mp hu with rfl | hu
    · rcases (hreads'' t).mp ht with rfl | rfl <;> simp
    · rcases List.mem_pair.mp hu with rfl | rfl
      · rcases (hreads' t).mp ht with rfl | rfl <;> simp
      · rcases (hreads t).mp ht with rfl | rfl <;> simp
  · intro v hv
    rcases List.mem_cons.mp hv with rfl | hv
    · exact ⟨root, by simp, (hreads _).mpr (.inr rfl)⟩
    · rcases List.mem_cons.mp hv with rfl | hv
      · exact ⟨w.node, List.mem_cons_self, (hreads'' _).mpr (.inl rfl)⟩
      · rcases List.mem_pair.mp hv with rfl | rfl
        · exact ⟨w.node, List.mem_cons_self, (hreads'' _).mpr (.inr rfl)⟩
        · exact ⟨z.node, by simp, (hreads' _).mpr (.inr rfl)⟩

end Rewrites

end BiasFusion

end TensorGraph
