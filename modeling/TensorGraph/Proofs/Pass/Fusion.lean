import TensorGraph.Proofs.Pass.Canonicalization

/-! # Folding and bias fusion

Constants take the place of folded operations, and products with a bias that of sums. What is
staged weighs less than the root.
-/

namespace TensorGraph

open Relation Arena Staging

variable {g h : Graph} {root : NodeId} {v : Value} {m : Match} {bs bs' : Bindings}
variable {p : Plan Body} {k : Kind} {n : Node Body}

/-- The site of a rewrite that stages what is lighter than the root. -/
def Site.lighter (hh : h.Regular) (root : NodeId) (k : Kind) : Site :=
  ⟨h, root, root, fun l => l.weight < k.weight, hh.table, .refl⟩

theorem progresses_lighter (hh : h.Regular) (hk : h.kind? root = some k) (hpos : 0 < k.weight) :
    p.Progresses (.lighter hh root k) :=
  ⟨k, hk, .inl ⟨hpos, fun _ hl => hl⟩⟩

theorem above_of_input (hh : h.Regular) (hn : h.node? root = some n) (hv : v ∈ n.inputs) :
    (Operand.graph v).Above (.lighter hh root k) :=
  TransGen.single (reads_of_input hn hv)

theorem above_staged {c : Site} (index port : Nat) : (Operand.staged index port).Above c := trivial

theorem type?_eq_of_single {t u : ElementType} (hn : h.node? v.node = some n)
    (hspecs : n.specs.map Spec.elementType = [t]) (hv : h.type? v = some u) : t = u := by
  have hport : h.type? v = [t][v.port]? := by
    rw [← hspecs, ← type?_of_node? hn v.port]
    rfl
  rw [hv, List.getElem?_singleton] at hport
  split at hport
  · exact (Option.some.inj hport).symm
  · cases hport

/-! ### Folding -/

theorem Primitive.type_fold? {p : Primitive} {operands : List Tensor} {result : Tensor}
    {ins : List (Option ElementType)} {outs : List ElementType}
    (h : Operation.Types (.primitive p) ins outs)
    (hins : ins = operands.map fun t => some t.elementType) (e : p.fold? operands = some result) :
    outs = [result.elementType] := by
  have harithmetic {f : Float → Float → Float} {a b : Tensor}
      (hk : p.kind ∈ [.add, .subtract, .multiply]) (hab : operands = [a, b])
      (e : a.zipWith? f b = some result) : outs = [result.elementType] := by
    obtain ⟨t, hins', rfl⟩ := h.arithmetic hk
    unfold Tensor.zipWith? at e
    split at e
    · obtain ⟨sizes, -, rfl⟩ := Option.map_eq_some_iff.mp e
      rw [hins', hab] at hins
      exact congrArg (fun t => [t]) (Option.some.inj (List.cons.inj hins).1)
    · cases e
  have hkeep {a : Tensor}
      (hk : p.kind ∈ [.transpose, .reshape, .squeeze, .unsqueeze, .reduceMax])
      (ha : operands = [a]) (ht : result.elementType = a.elementType) :
      outs = [result.elementType] := by
    obtain ⟨t, hins', rfl⟩ := h.keep hk
    rw [hins', ha] at hins
    rw [ht]
    exact congrArg (fun t => [t]) (Option.some.inj (List.cons.inj hins).1)
  have hwith {a : Tensor} {sizes : List Nat} (e : a.withSizes? sizes = some result) :
      result.elementType = a.elementType := by
    unfold Tensor.withSizes? at e
    split at e
    · rw [← Option.some.inj e]
    · cases e
  unfold fold? at e
  split at e
  · exact harithmetic (by decide) rfl e
  · exact harithmetic (by decide) rfl e
  · exact harithmetic (by decide) rfl e
  · obtain ⟨sizes, -, e⟩ := Option.bind_eq_some_iff.mp e
    exact hkeep (List.mem_cons_of_mem _ List.mem_cons_self) rfl (hwith e)
  · refine hkeep List.mem_cons_self rfl ?_
    unfold Tensor.transpose? at e
    split at e
    · rw [← Option.some.inj e]
      rfl
    · cases e
  · obtain ⟨positions, -, e⟩ := Option.bind_eq_some_iff.mp e
    exact hkeep (List.mem_of_elem_eq_true rfl) rfl (hwith e)
  · obtain ⟨positions, -, e⟩ := Option.bind_eq_some_iff.mp e
    obtain ⟨sizes, -, e⟩ := Option.bind_eq_some_iff.mp e
    exact hkeep (List.mem_of_elem_eq_true rfl) rfl (hwith e)
  · obtain ⟨u, -, rfl⟩ := h.convert
    rw [← Option.some.inj e]
    rfl
  · cases e

namespace ConstantFolding

theorem type?_of_constant? {t : Tensor} {u : ElementType} (hh : h.Regular)
    (ht : constant? h v = some t) (hu : h.type? v = some u) : u = t.elementType := by
  obtain ⟨n, hn, hop⟩ := Option.bind_eq_some_iff.mp ht
  have htypes := hh.typed.node hn
  rw [Operation.constant?_eq_some_iff.mp hop] at htypes
  exact (type?_eq_of_single hn htypes.constant.2 hu).symm

theorem types_folded {t : Tensor} (hh : h.Regular) (hn : h.node? root = some n)
    (e : folded h root = .ok t) : n.specs.map Spec.elementType = [t.elementType] := by
  obtain ⟨n', p, operands, hn', hop, hoperands, e⟩ := folded_eq_ok_iff.mp e
  obtain rfl := Option.some.inj (hn.symm.trans hn')
  have htypes := hh.typed.node hn
  rw [hop] at htypes
  refine Primitive.type_fold? htypes ?_ (Primitive.fold_eq_ok_iff.mp e).2
  have hmap := congrArg (List.map (Option.map Tensor.elementType))
    (mapM_eq_some_iff.mp hoperands)
  rw [List.map_map, List.map_map] at hmap
  refine (List.map_congr_left fun v hv => ?_).trans hmap
  obtain ⟨u, hu⟩ := htypes.exists_type (List.mem_map_of_mem hv)
  obtain ⟨t, -, ht⟩ := List.mem_map.mp
    ((mapM_eq_some_iff.mp hoperands) ▸ List.mem_map_of_mem hv)
  rw [hu, type?_of_constant? hh ht.symm hu, Function.comp_apply, ← ht]
  rfl

theorem reducing_pass : pass.Reducing where
  wraps := ⟨by decide, trivial⟩
  advances g h root m plan hh hnode hm e := by
    obtain ⟨n, hn, hkind, -, rfl⟩ := Pattern.matchNode_leaf hm
    rw [← hnode] at hn
    have hpos : 0 < n.kind.weight := (by decide : ∀ k ∈ foldable, 0 < k.weight) _ hkind
    dsimp only [pass] at e
    refine ⟨Match.mem_nodes (b := ⟨0, root.output 0, true⟩) List.mem_cons_self rfl,
      .lighter hh root n.kind, rfl, rfl,
      Plan.advances_of_toPlan e (.bind (.refl _) ensures_ofAttempt ?_)⟩
    rintro folded q - ⟨hfolded, rfl⟩
    have hspecs := types_folded hh hn hfolded
    have hold : h.type? (root.output 0) = some folded.elementType := by
      rw [type?_of_node? hn, hspecs]
      rfl
    refine .bind (.refl _) (ensures_makeValue hpos fun _ hx => absurd hx List.not_mem_nil) ?_
    rintro constant q - ⟨hx, ⟨outs, htypes, hport⟩, -⟩
    obtain ⟨-, rfl⟩ := htypes.constant
    refine .bind (.refl _) (ensures_inherit ?_) ?_
    · exact List.forall_mem_singleton.mpr (contains_of_node? hn)
    · rintro - r hr -
      refine (ensures_replace rfl hx hold (hr.type? hport)).mono fun _ q hq => ?_
      exact ⟨Plan.covers_of_single hn hspecs hq.2, progresses_lighter hh (kind?_of_node? hn) hpos⟩

end ConstantFolding

/-! ### Bias fusion -/

namespace BiasFusion

structure Product (h : Graph) (w d k : Value) where
  node : Node Body
  node?_eq : h.node? w.node = some node
  kind : node.kind = .fullyConnected
  inputs : node.inputs = [d, k]

theorem matchValue_product (h₂ : bs.value? 2 = none) (h₀ : bs.value? 0 = none)
    (h₁ : bs.value? 1 = none) (e : product.matchValue g v bs = (true, bs')) :
    ∃ d k, Nonempty (Product g v d k) ∧ Guard.isStatic.test g k = true ∧
      bs' = ⟨1, k, false⟩ :: ⟨0, d, false⟩ :: ⟨2, v, true⟩ :: bs := by
  obtain ⟨n, hn, hkind, -, harity, -, e⟩ := Term.matchValue_wrap h₂ e
  obtain ⟨d, k, hin⟩ := List.length_eq_two.mp (harity.resolve_left (List.cons_ne_nil _ _))
  rw [hin] at e
  obtain ⟨bs₁, hd, e⟩ := Term.matchInputs_cons e
  obtain ⟨bs₂, hk, e⟩ := Term.matchInputs_cons e
  obtain ⟨-, -, rfl⟩ := Term.matchValue_input (by simpa using h₀) hd
  obtain ⟨-, hstatic, rfl⟩ := Term.matchValue_input (by simpa using h₁) hk
  obtain rfl := Term.matchInputs_nil e
  exact ⟨d, k, ⟨⟨n, hn, List.mem_singleton.mp hkind, hin⟩⟩, hstatic, rfl⟩

section Types

variable {w d k b : Value} {t : ElementType} {x : Operand}

/-- The type of a product is the one that its operands determine. -/
theorem Product.type (hh : h.Regular) (x : Product h w d k) (hw : h.type? w = some t) :
    ∃ u u', h.type? d = some u ∧ h.type? k = some u' ∧ Inferred.productType u u' = .ok t := by
  obtain ⟨u, u', rest, t', hins, hspecs, htype⟩ :=
    (hh.typed.node x.node?_eq).fullyConnected x.kind
  obtain rfl := type?_eq_of_single x.node?_eq hspecs hw
  rw [x.inputs] at hins
  exact ⟨u, u', (List.cons.inj hins).1, (List.cons.inj (List.cons.inj hins).2).1, htype⟩

theorem Product.reads (x : Product h w d k) : h.Reads w.node d.node ∧ h.Reads w.node k.node := by
  constructor
  · exact reads_of_input x.node?_eq (by rw [x.inputs]; exact List.mem_cons_self)
  · exact reads_of_input x.node?_eq
      (by rw [x.inputs]; exact List.mem_cons_of_mem _ List.mem_cons_self)

variable {c : Site}

theorem ensures_stageBias {perChannel : Bool} (hb : (Operand.graph b).Above c)
    (hk : ∀ l ∈ [Kind.constant, .reshape, .fullyConnected, .multiply], c.kinds l) :
    Ensures c p (stageBias c.graph w b perChannel) fun x _ => x.Above c := by
  refine .bind (.refl _) ensures_ofOption ?_
  rintro value q - ⟨-, rfl⟩
  refine .bind (.refl _) ensures_ofOption ?_
  rintro channels q - ⟨-, rfl⟩
  refine .bind (.refl _) ensures_check ?_
  rintro - q - ⟨-, rfl⟩
  split
  · exact ensures_pure hb
  · refine .bind (.refl _) ensures_ofAttempt ?_
    rintro flat q - ⟨-, rfl⟩
    split
    · refine (ensures_makeValue (hk _ List.mem_cons_self) ?_).mono fun _ _ hx => hx.1
      exact fun _ hx => absurd hx List.not_mem_nil
    · refine (ensures_makeValue (hk _ (List.mem_cons_of_mem _ List.mem_cons_self)) ?_).mono
        fun _ _ hx => hx.1
      exact List.forall_mem_singleton.mpr hb

theorem ensures_fused (hh : c.graph.Regular) (y : Product c.graph w d k)
    (hw : c.graph.type? w = some t) (hk : c.kinds .fullyConnected)
    (hd : (Operand.graph d).Above c) (hk' : (Operand.graph k).Above c) (hx : x.Above c) :
    Ensures c p (make c.graph Primitive.fullyConnected [d, k, x]) fun i q =>
      q.type? c.graph (.staged i 0) = some t := by
  obtain ⟨u, u', hu, hu', htype⟩ := y.type hh hw
  refine (ensures_make hk ?_).mono ?_
  · exact List.forall_mem_cons.mpr ⟨hd, List.forall_mem_cons.mpr
      ⟨hk', List.forall_mem_singleton.mpr hx⟩⟩
  · rintro i q ⟨⟨outs, htypes, hports⟩, -⟩
    obtain ⟨v, v', rest, t', hins, rfl, htype'⟩ := htypes.fullyConnected rfl
    obtain rfl : u = v := Option.some.inj (hu.symm.trans (List.cons.inj hins).1)
    obtain rfl : u' = v' :=
      Option.some.inj (hu'.symm.trans (List.cons.inj (List.cons.inj hins).2).1)
    obtain rfl := Except.ok.inj (htype.symm.trans htype')
    exact hports 0

theorem ensures_fusedValue (hh : c.graph.Regular) (y : Product c.graph w d k)
    (hw : c.graph.type? w = some t) (hk : c.kinds .fullyConnected)
    (hd : (Operand.graph d).Above c) (hk' : (Operand.graph k).Above c) (hx : x.Above c) :
    Ensures c p (makeValue c.graph Primitive.fullyConnected [d, k, x]) fun z q =>
      z.Above c ∧ q.type? c.graph z = some t :=
  .bind (.refl _) (ensures_fused hh y hw hk hd hk' hx) fun i _ _ hi =>
    ensures_pure ⟨above_staged i 0, hi⟩

end Types

structure Sum (h : Graph) where
  regular : h.Regular
  root : NodeId
  left : Value
  right : Value
  node : Node Body
  node?_root : h.node? root = some node
  kind : node.kind = .add
  inputs : node.inputs = [left, right]

namespace Sum

variable (x : Sum h)

def site : Site := .lighter x.regular x.root .add

theorem types : ∃ t, h.type? x.left = some t ∧ h.type? (x.root.output 0) = some t ∧
    x.node.specs.map Spec.elementType = [t] := by
  obtain ⟨t, hins, hspecs⟩ :=
    (x.regular.typed.node x.node?_root).arithmetic (x.kind ▸ List.mem_cons_self)
  rw [x.inputs] at hins
  exact ⟨t, (List.cons.inj hins).1, by rw [type?_of_node? x.node?_root, hspecs]; rfl, hspecs⟩

theorem reads_left : h.Reads x.root x.left.node :=
  reads_of_input x.node?_root (x.inputs ▸ List.mem_cons_self)

theorem above_right : (Operand.graph x.right).Above x.site := by
  refine above_of_input x.regular x.node?_root ?_
  rw [x.inputs]
  exact List.mem_cons_of_mem _ List.mem_cons_self

theorem ensures_replace {y : Operand} {t : ElementType} (hy : y.Above x.site)
    (hyt : p.type? h y = some t) (ht : h.type? (x.root.output 0) = some t) :
    Ensures x.site p (replace (x.root.output 0) y) fun _ q =>
      q.Covers x.site ∧ q.Progresses x.site := by
  obtain ⟨_, -, -, hspecs⟩ := x.types
  refine (Staging.ensures_replace rfl hy ht hyt).mono fun _ q hq => ?_
  exact ⟨Plan.covers_of_single x.node?_root hspecs hq.2,
    progresses_lighter x.regular (x.kind ▸ kind?_of_node? x.node?_root) (by decide)⟩

/-- The kinds that bias fusion stages. -/
theorem kinds : ∀ l ∈ [Kind.constant, .reshape, .fullyConnected, .multiply], x.site.kinds l :=
  (by decide : ∀ l ∈ [Kind.constant, .reshape, .fullyConnected, .multiply],
    l.weight < Kind.add.weight)

end Sum

theorem matchNode_sum {left : Term} {label label' size : Nat} {guard : Guard} {root : NodeId}
    (hleft : ∀ v bs, left.matchValue g v [⟨label, root.output 0, true⟩] = (true, bs) →
      bs.value? label' = none)
    (e : (⟨.wrap label [.add] [left, .input label' guard] .always, size⟩ :
      Pattern).matchNode g root = some m) :
    ∃ n w b bs, g.node? root = some n ∧ n.kind = .add ∧ n.inputs = [w, b] ∧
      left.matchValue g w [⟨label, root.output 0, true⟩] = (true, bs) ∧
      m = ⟨root.output 0, (⟨label', b, false⟩ :: bs).reverse⟩ := by
  obtain ⟨bs, hbs, rfl⟩ := Pattern.matchNode_eq_some e
  obtain ⟨n, hn, hkind, -, harity, -, hbs⟩ := Term.matchValue_wrap rfl hbs
  obtain ⟨w, b, hin⟩ := List.length_eq_two.mp (harity.resolve_left (List.cons_ne_nil _ _))
  rw [hin] at hbs
  obtain ⟨bs₁, hw, hbs⟩ := Term.matchInputs_cons hbs
  obtain ⟨bs₂, hb, hbs⟩ := Term.matchInputs_cons hbs
  obtain ⟨-, -, rfl⟩ := Term.matchValue_input (hleft w bs₁ hw) hb
  obtain rfl := Term.matchInputs_nil hbs
  exact ⟨n, w, b, bs₁, hn, List.mem_singleton.mp hkind, hin, hw, rfl⟩

theorem matchNode_plain {root : NodeId} (e : plain.pattern.matchNode g root = some m) :
    ∃ n w b d k, g.node? root = some n ∧ n.kind = .add ∧ n.inputs = [w, b] ∧
      Nonempty (Product g w d k) ∧ Guard.isStatic.test g k = true ∧
      m = ⟨root.output 0, [⟨4, root.output 0, true⟩, ⟨2, w, true⟩, ⟨0, d, false⟩, ⟨1, k, false⟩,
        ⟨3, b, false⟩]⟩ := by
  have hproduct (w : Value) (bs : Bindings)
      (e : product.matchValue g w [⟨4, root.output 0, true⟩] = (true, bs)) :=
    matchValue_product rfl rfl rfl e
  obtain ⟨n, w, b, bs, hn, hk, hin, hw, rfl⟩ := matchNode_sum (fun w bs e => by
    obtain ⟨d, k, -, -, rfl⟩ := hproduct w bs e
    rfl) e
  obtain ⟨d, k, y, hstatic, rfl⟩ := hproduct w bs hw
  exact ⟨n, w, b, d, k, hn, hk, hin, y, hstatic, rfl⟩

theorem reducing_plain : plain.Reducing where
  wraps := ⟨by decide, ⟨by decide, trivial, trivial, trivial⟩, trivial, trivial⟩
  advances g h root m plan hh hnode hm e := by
    obtain ⟨n, w, b, d, k, hn, hk, hin, ⟨y⟩, -, rfl⟩ := matchNode_plain hm
    rw [← hnode] at hn
    replace y : Product h w d k := ⟨y.node, hnode ▸ y.node?_eq, y.kind, y.inputs⟩
    let x : Sum h := ⟨hh, root, w, b, n, hn, hk, hin⟩
    obtain ⟨t, hw, hold, -⟩ := x.types
    have hd : (Operand.graph d).Above x.site := TransGen.head x.reads_left (.single y.reads.1)
    have hk : (Operand.graph k).Above x.site := TransGen.head x.reads_left (.single y.reads.2)
    refine ⟨Match.mem_nodes (b := ⟨4, root.output 0, true⟩) List.mem_cons_self rfl, x.site, rfl,
      rfl, Plan.advances_of_toPlan (rewrite_plain.symm.trans e) ?_⟩
    refine .bind (.refl _) (ensures_stageBias x.above_right x.kinds) ?_
    rintro bias q - hbias
    refine .bind (.refl _) (ensures_fused hh y hw (x.kinds _ ?_) hd hk hbias) ?_
    · decide
    rintro fused q - hfused
    refine .bind (.refl _) ensures_rename ?_
    rintro - r hr -
    refine .bind hr (ensures_inherit ?_) ?_
    · intro id hid
      rcases List.mem_pair.mp hid with rfl | rfl
      · exact contains_of_node? y.node?_eq
      · exact contains_of_node? hn
    · rintro - s hs -
      exact x.ensures_replace (above_staged fused 0) (hs.type? hfused) hold

theorem matchValue_scaled (h : bs.value? 4 = none ∧ bs.value? 3 = none ∧ bs.value? 2 = none ∧
      bs.value? 1 = none ∧ bs.value? 0 = none)
    (e : scaled.matchValue g v bs = (true, bs')) :
    ∃ n w s d k, g.node? v.node = some n ∧ n.kind = .multiply ∧ n.inputs = [w, s] ∧
      Nonempty (Product g w d k) ∧ Guard.isStatic.test g k = true ∧
      Guard.isStatic.test g s = true ∧
      bs' = ⟨3, s, false⟩ :: ⟨1, k, false⟩ :: ⟨0, d, false⟩ :: ⟨2, w, true⟩ ::
        ⟨4, v, true⟩ :: bs := by
  obtain ⟨h₄, h₃, h₂, h₁, h₀⟩ := h
  obtain ⟨n, hn, hkind, -, harity, -, e⟩ := Term.matchValue_wrap h₄ e
  obtain ⟨w, s, hin⟩ := List.length_eq_two.mp (harity.resolve_left (List.cons_ne_nil _ _))
  rw [hin] at e
  obtain ⟨bs₁, hw, e⟩ := Term.matchInputs_cons e
  obtain ⟨bs₂, hs, e⟩ := Term.matchInputs_cons e
  obtain ⟨d, k, y, hk, rfl⟩ :=
    matchValue_product (by simpa using h₂) (by simpa using h₀) (by simpa using h₁) hw
  obtain ⟨-, hscale, rfl⟩ := Term.matchValue_input (by simpa using h₃) hs
  obtain rfl := Term.matchInputs_nil e
  exact ⟨n, w, s, d, k, hn, List.mem_singleton.mp hkind, hin, y, hk, hscale, rfl⟩

theorem matchNode_quantized {root : NodeId} (e : quantized.pattern.matchNode g root = some m) :
    ∃ n z b n' w s d k, g.node? root = some n ∧ n.kind = .add ∧ n.inputs = [z, b] ∧
      g.node? z.node = some n' ∧ n'.kind = .multiply ∧ n'.inputs = [w, s] ∧
      Nonempty (Product g w d k) ∧ Guard.isStatic.test g k = true ∧
      Guard.isStatic.test g s = true ∧
      m = ⟨root.output 0, [⟨6, root.output 0, true⟩, ⟨4, z, true⟩, ⟨2, w, true⟩, ⟨0, d, false⟩,
        ⟨1, k, false⟩, ⟨3, s, false⟩, ⟨5, b, false⟩]⟩ := by
  have hscaled (w : Value) (bs : Bindings)
      (e : scaled.matchValue g w [⟨6, root.output 0, true⟩] = (true, bs)) :=
    matchValue_scaled ⟨rfl, rfl, rfl, rfl, rfl⟩ e
  obtain ⟨n, z, b, bs, hn, hadd, hin, hz, rfl⟩ := matchNode_sum (fun w bs e => by
    obtain ⟨_, _, _, _, _, -, -, -, -, -, -, rfl⟩ := hscaled w bs e
    rfl) e
  obtain ⟨n', w, s, d, k, hn', hk', hin', y, hk, hs, rfl⟩ := hscaled z bs hz
  exact ⟨n, z, b, n', w, s, d, k, hn, hadd, hin, hn', hk', hin', y, hk, hs, rfl⟩

theorem reducing_quantized : quantized.Reducing where
  wraps := ⟨by decide, ⟨by decide, ⟨by decide, trivial, trivial, trivial⟩, trivial, trivial⟩,
    trivial, trivial⟩
  advances g h root m plan hh hnode hm e := by
    obtain ⟨n, z, b, n', w, s, d, k, hn, hk, hin, hn', hk', hin', ⟨y⟩, -, -, rfl⟩ :=
      matchNode_quantized hm
    rw [← hnode] at hn hn'
    replace y : Product h w d k := ⟨y.node, hnode ▸ y.node?_eq, y.kind, y.inputs⟩
    let x : Sum h := ⟨hh, root, z, b, n, hn, hk, hin⟩
    obtain ⟨t, hz, hold, -⟩ := x.types
    obtain ⟨t', hins, hspecs⟩ :=
      (hh.typed.node hn').arithmetic (by
        change n'.kind ∈ _
        rw [hk']
        decide)
    obtain rfl := type?_eq_of_single hn' hspecs hz
    rw [hin'] at hins
    have hw : h.type? w = some t' := (List.cons.inj hins).1
    have hreads : TransGen h.Reads root w.node := TransGen.head x.reads_left
      (.single (reads_of_input hn' (hin' ▸ List.mem_cons_self)))
    have hd : (Operand.graph d).Above x.site := hreads.tail y.reads.1
    have hk : (Operand.graph k).Above x.site := hreads.tail y.reads.2
    have hs : (Operand.graph s).Above x.site := TransGen.head x.reads_left (.single
      (reads_of_input hn' (by rw [hin']; exact List.mem_cons_of_mem _ List.mem_cons_self)))
    refine ⟨Match.mem_nodes (b := ⟨6, root.output 0, true⟩) List.mem_cons_self rfl, x.site, rfl,
      rfl, Plan.advances_of_toPlan (rewrite_quantized.symm.trans e) ?_⟩
    refine .bind (.refl _) (ensures_stageBias x.above_right x.kinds) ?_
    rintro bias q - hbias
    refine .bind (.refl _) (ensures_fusedValue hh y hw (x.kinds _ ?_) hd hk hbias) ?_
    · decide
    rintro fused q - ⟨habove, hfused⟩
    refine .bind (.refl _) (ensures_make (x.kinds _ ?_) ?_) ?_
    · decide
    · exact List.forall_mem_cons.mpr ⟨habove, List.forall_mem_singleton.mpr hs⟩
    rintro rescaled q hq ⟨⟨outs, htypes, hports⟩, -⟩
    obtain ⟨t, hins, rfl⟩ := htypes.arithmetic (List.mem_of_elem_eq_true rfl)
    obtain rfl : t' = t :=
      Option.some.inj ((hq.type? hfused).symm.trans (List.cons.inj hins).1)
    refine .bind (.refl _) ensures_rename ?_
    rintro - r hr -
    refine .bind hr (ensures_inherit ?_) ?_
    · simp only [List.forall_mem_cons, List.not_mem_nil, false_imp_iff, implies_true, and_true]
      exact ⟨contains_of_node? y.node?_eq, contains_of_node? hn', contains_of_node? hn⟩
    · rintro - s hs -
      exact x.ensures_replace (above_staged rescaled 0) (hs.type? (hports 0)) hold

end BiasFusion

end TensorGraph
