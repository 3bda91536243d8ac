import TensorGraph.Proofs.Inference.Folding
import TensorGraph.Proofs.Inference.Recorded
import TensorGraph.Proofs.Pass.FixedPoint
import TensorGraph.Proofs.Pass.Fusion
import TensorGraph.Proofs.Pass.Unpinning
import TensorGraph.Proofs.Rewrite.Reading

/-! # Specs of fused products

A product with a bias has the spec of the product without it. So what replaces a sum has the spec
of what the bias was added to, and that is the spec of the sum exactly if the bias adds no axis and
stretches none.
-/

namespace TensorGraph

open Arena

/-! ### Flat tensors -/

namespace Tensor

variable {t : Tensor}

def flat (t : Tensor) : Tensor := ⟨t.elementType, [t.data.size], t.data, by simp [entryCount]⟩

theorem flat_eq (hlen : t.sizes.length < 2) (hlast : t.sizes.getLast? = some t.data.size) :
    t.flat = t := by
  refine ext_data rfl ?_ rfl
  change [t.data.size] = t.sizes
  generalize t.sizes = sizes at hlen hlast
  match sizes, hlen, hlast with
  | [n], _, hlast => simpa using hlast.symm

theorem reshape?_flat (t : Tensor) (specialZero : Bool) :
    t.reshape? [-1] specialZero = some t.flat := by
  refine reshape?_eq_some_iff.mpr ⟨?_, rfl, rfl⟩
  simp [resolveTarget?, targetSizes?, targetSize?, entryCount, flat, t.size_data, Nat.mod_one]

end Tensor

/-! ### Broadcasts that change nothing -/

theorem mapM_eq_ok_iff_forall₂ {ε α γ : Type} {f : α → Except ε γ} {l : List α} {ys : List γ} :
    l.mapM f = .ok ys ↔ List.Forall₂ (fun x y => f x = .ok y) l ys := by
  induction l generalizing ys with
  | nil => simp [pure, Except.pure, eq_comm]
  | cons x l ih =>
    rw [List.mapM_cons, bind_eq_ok_iff]
    simp only [bind_eq_ok_iff, ih]
    constructor
    · rintro ⟨y, hy, rest, hrest, e⟩
      obtain rfl := Except.ok.inj e
      exact .cons hy hrest
    · rintro (_ | ⟨hy, hrest⟩)
      exact ⟨_, hy, _, hrest, rfl⟩

/-- Aligned at the last axes, every size is one or the known extent of that axis. -/
def Absorbs (extents : List Extent) (sizes : List Nat) : Prop :=
  List.Forall₂ (fun n e => n = 1 ∨ e = .known n) (alignRight 1 extents.length sizes) extents

section Absorbs

variable {extents other result : List Extent} {sizes : List Nat} {n : Nat} {e e' : Extent}

theorem broadcast_eq_self_iff (h : e.broadcast (.known n) = .ok e') :
    e' = e ↔ n = 1 ∨ e = .known n := by
  unfold Extent.broadcast at h
  grind

theorem length_alignRight {α : Type} (unit : α) (rank : Nat) (l : List α) :
    (alignRight unit rank l).length = max rank l.length := by
  simp only [alignRight, List.length_append, List.length_replicate]
  omega

theorem alignRight_of_le {α : Type} {unit : α} {rank : Nat} {l : List α} (h : rank ≤ l.length) :
    alignRight unit rank l = l := by
  rw [alignRight, Nat.sub_eq_zero_of_le h, List.replicate_zero, List.nil_append]

theorem length_broadcastExtents (h : Shape.broadcastExtents extents other = .ok result) :
    result.length = max extents.length other.length := by
  rw [← (mapM_eq_ok_iff_forall₂.mp h).length_eq, List.length_zip, length_alignRight,
    length_alignRight]
  omega

theorem Absorbs.length_le (h : Absorbs extents sizes) : sizes.length ≤ extents.length := by
  have hlen := h.length_eq
  rw [length_alignRight] at hlen
  omega

theorem broadcast_zip_eq_self_iff {aligned : List Nat} (hlen : aligned.length = extents.length)
    (h : List.Forall₂ (fun x y => x.1.broadcast x.2 = .ok y) (extents.zip (aligned.map .known))
      result) : result = extents ↔
        List.Forall₂ (fun n e => n = 1 ∨ e = .known n) aligned extents := by
  induction extents generalizing aligned result with
  | nil =>
    obtain rfl := List.length_eq_zero_iff.mp hlen
    cases h
    simp
  | cons e extents ih =>
    obtain ⟨n, aligned, rfl⟩ := List.exists_cons_of_length_eq_add_one hlen
    obtain - | ⟨he, h⟩ := h
    rw [List.cons.injEq, List.forall₂_cons, broadcast_eq_self_iff he, ih (Nat.succ.inj hlen) h]

/-- A broadcast against known sizes gives back the extents exactly if they absorb the sizes. -/
theorem broadcastExtents_eq_self_iff
    (h : Shape.broadcastExtents extents (sizes.map .known) = .ok result) :
    result = extents ↔ Absorbs extents sizes := by
  have hlen := length_broadcastExtents h
  rw [List.length_map] at hlen
  by_cases hle : sizes.length ≤ extents.length
  · have h := mapM_eq_ok_iff_forall₂.mp h
    rw [List.length_map, Nat.max_eq_left hle, alignRight_of_le le_rfl, alignRight_map] at h
    refine broadcast_zip_eq_self_iff ?_ h
    rw [length_alignRight, Nat.max_eq_left hle]
  · constructor
    · rintro rfl
      omega
    · exact fun h => absurd h.length_le hle

theorem entryCount_concat (sizes : List Nat) (n : Nat) :
    entryCount (sizes ++ [n]) = entryCount sizes * n := by
  induction sizes with
  | nil => simp [entryCount]
  | cons m sizes ih => rw [List.cons_append, entryCount, ih, entryCount, Nat.mul_assoc]

theorem eq_replicate_of_entryCount (h : entryCount sizes = 1) :
    sizes = List.replicate sizes.length 1 := by
  induction sizes with
  | nil => rfl
  | cons n sizes ih =>
    obtain ⟨rfl, hrest⟩ := mul_eq_one.mp h
    rw [List.length_cons, List.replicate_succ, ← ih hrest]

/-- Sizes whose last one counts all entries are absorbed where no axis is missing. -/
theorem absorbs_of_length_le (hlast : sizes.getLast? = some n) (hcount : entryCount sizes = n)
    (hpos : 0 < n) (hextent : n = 1 ∨ extents.getLast? = some (.known n))
    (hle : sizes.length ≤ extents.length) : Absorbs extents sizes := by
  obtain ⟨init, rfl⟩ := List.getLast?_eq_some_iff.mp hlast
  have hinit : entryCount init = 1 := by
    rw [entryCount_concat] at hcount
    exact Nat.eq_of_mul_eq_mul_right hpos (hcount.trans (Nat.one_mul n).symm)
  rw [List.length_append, List.length_singleton] at hle
  have hne : extents ≠ [] := by
    rintro rfl
    simp at hle
  have hones : alignRight 1 extents.length (init ++ [n]) =
      List.replicate (extents.length - 1) 1 ++ [n] := by
    rw [alignRight, eq_replicate_of_entryCount hinit]
    simp only [List.length_append, List.length_replicate, List.length_singleton,
      ← List.append_assoc, ← List.replicate_add]
    congr 2
    omega
  rw [Absorbs, hones]
  nth_rewrite 2 [← List.dropLast_append_getLast hne]
  refine List.rel_append ?_ (.cons ?_ .nil)
  · rw [List.forall₂_iff_get]
    refine ⟨by simp, fun i hi _ => .inl ?_⟩
    simp
  · rcases hextent with rfl | hextent
    · exact .inl rfl
    · exact .inr (by simpa [List.getLast?_eq_some_getLast hne] using hextent)

theorem broadcast_known_of_ne_one (hn : n ≠ 1) (h : (Extent.known n).broadcast e = .ok e') :
    e' = .known n := by
  unfold Extent.broadcast at h
  grind

theorem getLast?_alignRight {α : Type} {a : α} {l : List α} (unit : α) (rank : Nat)
    (h : l.getLast? = some a) : (alignRight unit rank l).getLast? = some a := by
  rw [alignRight, List.getLast?_append, h, Option.some_or]

/-- A broadcast cannot stretch a known last extent other than one. -/
theorem getLast?_broadcastExtents (h : Shape.broadcastExtents extents other = .ok result)
    (hlast : extents.getLast? = some (.known n)) :
    n = 1 ∨ result.getLast? = some (.known n) := by
  refine or_iff_not_imp_left.mpr fun hn => ?_
  have hrel := mapM_eq_ok_iff_forall₂.mp h
  set rank := max extents.length other.length with hrank
  have hleft : (alignRight (.known 1) rank extents)[rank - 1]? = some (.known n) := by
    have hlast' := getLast?_alignRight (.known 1) rank hlast
    rwa [List.getLast?_eq_getElem?, length_alignRight, Nat.max_eq_left (Nat.le_max_left _ _)]
      at hlast'
  have hlt : rank - 1 < (alignRight (.known 1) rank other).length := by
    have hlen := (List.getElem?_eq_some_iff.mp hleft).1
    rw [length_alignRight] at hlen ⊢
    omega
  have hzip : ((alignRight (.known 1) rank extents).zip (alignRight (.known 1) rank other))[rank - 1]?
      = some (.known n, (alignRight (.known 1) rank other)[rank - 1]) :=
    List.getElem?_zip_eq_some.mpr ⟨hleft, List.getElem?_eq_getElem hlt⟩
  obtain ⟨e, he, hstep⟩ := forall₂_getElem? hrel (rank - 1) hzip
  rw [List.getLast?_eq_getElem?, length_broadcastExtents h, ← hrank, he,
    broadcast_known_of_ne_one hn hstep]

end Absorbs

namespace BiasFusion

variable {g h : Graph} {root : NodeId} {m : Match} {plan p q : Plan Body} {D : Type}
variable {d k w s z b v : Value} {value : Tensor} {x : Operand}

/-! ### What is staged -/

/-- A constant that fits as a bias of a product: along its last axis there is one value for each
channel, and no more. -/
structure Bias (g : Graph) (product b : Value) (value : Tensor) : Prop where
  constant : (g.node? b.node).bind (fun n => n.op.constant?) = some value
  channels : channels? g product = some value.data.size
  last : value.sizes.getLast? = some value.data.size

/-- What the bias becomes: itself if it has one axis, else a flat constant. -/
def flattened (g : Graph) (b : Value) (value : Tensor) : Staging Operand :=
  if value.sizes.length < 2 then pure (.graph b)
  else Staging.makeValue g (Primitive.constant value.flat) []

theorem stageBias_eq_ok {perChannel : Bool} {r : Operand × Plan Body}
    (e : stageBias g w b perChannel p = .ok r) :
    ∃ value, Bias g w b value ∧ flattened g b value p = .ok r := by
  simp only [stageBias, Staging.bind_ok_iff, Staging.ofOption_eq_ok_iff,
    Staging.check_eq_ok_iff] at e
  obtain ⟨value, _, ⟨hvalue, rfl⟩, channels, _, ⟨hchannels, rfl⟩, _, _, ⟨hfits, rfl⟩, e⟩ := e
  simp only [fits, Bool.and_eq_true, beq_iff_eq] at hfits
  obtain ⟨⟨-, hlast⟩, rfl⟩ := hfits
  refine ⟨value, ⟨hvalue, hchannels, hlast⟩, ?_⟩
  unfold flattened
  split at e
  · rename_i hlen
    rwa [if_pos hlen]
  · rename_i hlen
    rw [if_neg hlen]
    obtain ⟨folded, _, hstep, hrest⟩ := Staging.bind_ok_iff.mp e
    obtain ⟨hfolded, rfl⟩ := Staging.ofAttempt_eq_ok_iff.mp hstep
    cases folded with
    | none =>
      have hnone := (Primitive.fold_eq_declined_iff.mp (Attempt.optional_eq_none_iff.mp hfolded)).2
      cases hnone.symm.trans (value.reshape?_flat true)
    | some flat =>
      have hflat := (Primitive.fold_eq_ok_iff.mp (Attempt.optional_eq_some_iff.mp hfolded)).2
      obtain rfl := Option.some.inj (hflat.symm.trans (value.reshape?_flat true))
      exact hrest

/-- However it is staged, the bias reads as a flat constant. -/
theorem stages_flattened {R : Reading g D} {Γ : Reading.Facts D} {K : Tensor → D}
    (hK : ∀ t, R.run (.constant t) [] = some [K t]) (hb : Bias g w b value)
    (hmem : (Operand.graph b, K value) ∈ Γ) :
    R.Stages Γ (flattened g b value) fun x => [(x, K value.flat)] := by
  unfold flattened
  split
  · rename_i hlen
    refine Reading.stages_pure ?_
    simpa [Tensor.flat_eq hlen hb.last] using hmem
  · exact Reading.stages_makeValue [] (List.nil_subset _) (hK _)

section Plan

variable {R : Reading h D} {K : Tensor → D}

variable (hK : ∀ t, R.run (.constant t) [] = some [K t])
include hK

theorem reads_plain (hnode : h.node? = g.node?) (hm : plain.pattern.matchNode g root = some m)
    (e : plain.rewrite h m = .ok plan) :
    ∃ n w b d k value, h.node? root = some n ∧ n.kind = .add ∧ n.inputs = [w, b] ∧
      Nonempty (Product h w d k) ∧ Guard.isStatic.test g k = true ∧ Bias h w b value ∧
      ∀ x y u us, R.Reads .empty (.graph d) x → R.Reads .empty (.graph k) y →
        R.Reads .empty (.graph b) (K value) →
        R.run .fullyConnected [x, y, K value.flat] = some (u :: us) →
        ∃ o, plan.replacements = [(root.output 0, o)] ∧ R.Reads plan o u := by
  obtain ⟨n, w, b, d, k, hn, hk, hin, ⟨y⟩, hstatic, rfl⟩ := matchNode_plain hm
  rw [← hnode] at hn
  replace y : Product h w d k := ⟨y.node, hnode ▸ y.node?_eq, y.kind, y.inputs⟩
  obtain ⟨o, q₁, i, q₂, q₃, hstage, hmake, hrename, rfl⟩ := plain_eq_ok e
  obtain ⟨value, hbias, hflat⟩ := stageBias_eq_ok hstage
  refine ⟨n, w, b, d, k, value, hn, hk, hin, ⟨y⟩, hstatic, hbias, fun x y u us hx hy hb hrun => ?_⟩
  have hΓ : R.Holds .empty [(.graph d, x), (.graph k, y), (.graph b, K value)] := by
    simp only [Reading.Holds, List.forall_mem_cons, List.not_mem_nil, false_imp_iff,
      implies_true, and_true]
    exact ⟨hx, hy, hb⟩
  obtain ⟨h₁, hr₁⟩ := stages_flattened hK hbias (by simp) _ o q₁ hΓ hflat
  obtain ⟨h₂, hr₂⟩ := Reading.stages_make [(.graph d, x), (.graph k, y),
    (o, K value.flat)] (by simp) hrun q₁ i q₂ h₁ hmake
  obtain ⟨h₃, hr₃⟩ := Reading.stages_rename q₂ _ q₃ h₂ hrename
  refine ⟨.staged i 0, by simp [Plan.replace, Plan.inherit, hr₃, hr₂, hr₁, Plan.empty], ?_⟩
  exact R.grow (p := q₃) List.prefix_rfl (h₃ (.staged i 0, u) (by simp))

theorem reads_quantized (hnode : h.node? = g.node?)
    (hm : quantized.pattern.matchNode g root = some m) (e : quantized.rewrite h m = .ok plan) :
    ∃ n z b n' w s d k value, h.node? root = some n ∧ n.kind = .add ∧ n.inputs = [z, b] ∧
      h.node? z.node = some n' ∧ n'.kind = .multiply ∧ n'.inputs = [w, s] ∧
      Nonempty (Product h w d k) ∧ Guard.isStatic.test g k = true ∧
      Guard.isStatic.test g s = true ∧ Bias h w b value ∧
      ∀ x y r u us t ts, R.Reads .empty (.graph d) x → R.Reads .empty (.graph k) y →
        R.Reads .empty (.graph s) r → R.Reads .empty (.graph b) (K value) →
        R.run .fullyConnected [x, y, K value.flat] = some (u :: us) →
        R.run .multiply [u, r] = some (t :: ts) →
        ∃ o, plan.replacements = [(root.output 0, o)] ∧ R.Reads plan o t := by
  obtain ⟨n, z, b, n', w, s, d, k, hn, hk, hin, hn', hk', hin', ⟨y⟩, hstatic, hscale, rfl⟩ :=
    matchNode_quantized hm
  rw [← hnode] at hn hn'
  replace y : Product h w d k := ⟨y.node, hnode ▸ y.node?_eq, y.kind, y.inputs⟩
  obtain ⟨o, q₁, o', q₂, i, q₃, q₄, hstage, hmake, hrescale, hrename, rfl⟩ := quantized_eq_ok e
  obtain ⟨value, hbias, hflat⟩ := stageBias_eq_ok hstage
  refine ⟨n, z, b, n', w, s, d, k, value, hn, hk, hin, hn', hk', hin', ⟨y⟩, hstatic, hscale, hbias,
    fun x y r u us t ts hx hy hr hb hrun hrun' => ?_⟩
  have hΓ : R.Holds .empty [(.graph d, x), (.graph k, y), (.graph s, r), (.graph b, K value)] := by
    simp only [Reading.Holds, List.forall_mem_cons, List.not_mem_nil, false_imp_iff,
      implies_true, and_true]
    exact ⟨hx, hy, hr, hb⟩
  obtain ⟨h₁, hr₁⟩ := stages_flattened hK hbias (by simp) _ o q₁ hΓ hflat
  obtain ⟨h₂, hr₂⟩ := Reading.stages_makeValue [(.graph d, x), (.graph k, y),
    (o, K value.flat)] (by simp) hrun q₁ o' q₂ h₁ hmake
  obtain ⟨h₃, hr₃⟩ := Reading.stages_make [(o', u), (.graph s, r)] (by simp) hrun' q₂
    i q₃ h₂ hrescale
  obtain ⟨h₄, hr₄⟩ := Reading.stages_rename q₃ _ q₄ h₃ hrename
  refine ⟨.staged i 0, by simp [Plan.replace, Plan.inherit, hr₄, hr₃, hr₂, hr₁, Plan.empty], ?_⟩
  exact R.grow (p := q₄) List.prefix_rfl (h₄ (.staged i 0, t) (by simp))

end Plan

/-! ### Its spec -/

section Specs

variable {l w' s' d' k' old new : Spec} {extents : List Extent} {n : Nat}

theorem fullyConnected_flat (e : Inferred.fullyConnected d' k' none = .ok w')
    (hshape : w'.shape = .ranked extents) (hlast : extents.getLast? = some (.known n))
    (hcount : n = value.data.size) :
    Inferred.fullyConnected d' k' (some value.flat.spec) = .ok w' := by
  obtain ⟨t, ht, e⟩ := bind_eq_ok_iff.mp e
  refine bind_eq_ok_iff.mpr ⟨t, ht, ?_⟩
  split at e
  · cases e
  · rename_i channels inner hweights
    obtain ⟨_, -, e⟩ := bind_eq_ok_iff.mp e
    refine bind_eq_ok_iff.mpr ⟨(), ?_, e⟩
    have hchannels : channels = .known n := by
      split at e
      · obtain rfl := Except.ok.inj e
        cases hshape
      · obtain ⟨_, -, e⟩ := bind_eq_ok_iff.mp e
        obtain ⟨_, -, e⟩ := bind_eq_ok_iff.mp e
        obtain rfl := Except.ok.inj e
        obtain rfl := Shape.ranked.inj hshape
        simpa using hlast
    unfold Inferred.requireBias
    split
    · rename_i count _ hbias _
      have hcount' : count = entryCount [value.data.size] := elementCount?_ofSizes hbias
      obtain rfl := Extent.known.inj hchannels
      exact Inferred.require_eq_ok_iff.mpr (by simp [hcount', entryCount, hcount])
    · rfl
  · cases e

theorem broadcast_ranked_eq_ok {other : List Extent} {shape : Shape}
    (e : Inferred.broadcast (.ranked extents) (.ranked other) = .ok shape) :
    ∃ result, Shape.broadcastExtents extents other = .ok result ∧ shape = .ranked result := by
  simp only [Inferred.broadcast, Shape.broadcast] at e
  cases hresult : Shape.broadcastExtents extents other with
  | error p =>
    rw [hresult] at e
    cases e
  | ok result =>
    rw [hresult] at e
    exact ⟨result, rfl, (Except.ok.inj e).symm⟩

/-- Adding a constant gives the spec of the other operand exactly if that absorbs it. -/
theorem arithmetic_constant (e : Inferred.arithmetic l value.spec = .ok old)
    (hshape : l.shape = .ranked extents) : l = old ↔ Absorbs extents value.sizes := by
  obtain ⟨t, shape⟩ := l
  obtain rfl : shape = .ranked extents := hshape
  obtain ⟨shape, hpaired, e⟩ := bind_eq_ok_iff.mp e
  obtain rfl := Except.ok.inj e
  obtain ⟨_, -, hbroadcast⟩ := bind_eq_ok_iff.mp hpaired
  obtain ⟨result, hresult, rfl⟩ := broadcast_ranked_eq_ok hbroadcast
  rw [← broadcastExtents_eq_self_iff hresult, Spec.mk.injEq, Shape.ranked.injEq]
  exact ⟨fun h => h.2.symm, fun h => ⟨rfl, h.symm⟩⟩

/-- The extents of a product, the last of which counts the values of a bias for it. -/
theorem Bias.exists_extents (hb : Bias h w b value) : ∃ w' extents, h.spec? w = some w' ∧
    w'.shape = .ranked extents ∧ extents.getLast? = some (.known value.data.size) := by
  have hchannels := hb.channels
  simp only [channels?, Option.bind_eq_bind, Option.bind_eq_some_iff] at hchannels
  obtain ⟨w', hw, extents, hextents, e, he, hsize⟩ := hchannels
  refine ⟨w', extents, hw, ?_, ?_⟩
  · unfold Shape.extents? at hextents
    split at hextents
    · cases hextents
    · rename_i hshape
      rw [hshape, Option.some.inj hextents]
  · unfold Extent.size? at hsize
    split at hsize
    · rw [he, Option.some.inj hsize]
    · cases hsize

/-- Rescaling keeps the last extent, unless it stretches an extent of one. -/
theorem rescaled_extents (e : Inferred.arithmetic w' s' = .ok l)
    (hstatic : Guard.isStatic.test h s = true) (hs : h.spec? s = some s')
    (hshape : w'.shape = .ranked extents) (hlast : extents.getLast? = some (.known n)) :
    ∃ extents', l.shape = .ranked extents' ∧
      (n = 1 ∨ extents'.getLast? = some (.known n)) := by
  obtain ⟨shape, hpaired, e⟩ := bind_eq_ok_iff.mp e
  obtain rfl := Except.ok.inj e
  obtain ⟨_, -, hbroadcast⟩ := bind_eq_ok_iff.mp hpaired
  have hranked : s'.shape.isStatic = true := by
    simpa [Guard.isStatic, Guard.onSpec, hs] using hstatic
  rw [hshape] at hbroadcast
  obtain ⟨other, hother⟩ : ∃ other, s'.shape = .ranked other := by
    unfold Shape.isStatic at hranked
    split at hranked
    · cases hranked
    · exact ⟨_, ‹_›⟩
  rw [hother] at hbroadcast
  obtain ⟨result, hresult, rfl⟩ := broadcast_ranked_eq_ok hbroadcast
  exact ⟨result, rfl, getLast?_broadcastExtents hresult hlast⟩

/-- A fusion replaces the sum of a value and a constant. -/
structure Replaces (h : Graph) (root : NodeId) (plan : Plan Body) (left : Value) (bias : Tensor)
    (x : Operand) : Prop where
  sum : ∃ n right, h.node? root = some n ∧ n.kind = .add ∧ n.inputs = [left, right] ∧
    (h.node? right.node).bind (fun n => n.op.constant?) = some bias
  replacements : plan.replacements = [(root.output 0, x)]

/-- What takes the place of the sum has the spec of what the constant was added to. -/
structure Fused (h : Graph) (root : NodeId) (plan : Plan Body) (left : Value) (bias : Tensor)
    (x : Operand) (l : Spec) (extents : List Extent) : Prop
    extends Replaces h root plan left bias x where
  left_spec : h.spec? left = some l
  spec : plan.spec? h x = some l
  shape : l.shape = .ranked extents
  last : bias.sizes.getLast? = some bias.data.size
  channels : bias.data.size = 1 ∨ extents.getLast? = some (.known bias.data.size)

section Fused

variable (ht : h.table = .standard) (hi : h.Inferred) (hnode : h.node? = g.node?)
include ht hi hnode

omit hnode in
theorem run_product (y : Product h w d k) (hb : Bias h w b value) (hw : h.spec? w = some w') :
    ∃ d' k', h.spec? d = some d' ∧ h.spec? k = some k' ∧
      (Reading.specs ht).run .fullyConnected [d', k', value.flat.spec] = some [w'] := by
  obtain ⟨d', k', s, hd, hk, hproduct, hspecs⟩ := hi.fullyConnected ht y.node?_eq
    (Operation.eq_primitive .fullyConnected (by simp) y.kind) y.inputs
  obtain rfl := spec_eq_of_single y.node?_eq hspecs hw
  obtain ⟨_, extents, hw', hshape, hlast⟩ := hb.exists_extents
  obtain rfl := Option.some.inj (hw.symm.trans hw')
  have hflat := fullyConnected_flat hproduct hshape hlast rfl
  have hrun : CapabilityTable.standard.infer (.primitive .fullyConnected)
      [d', k', value.flat.spec] = .ok [w'] :=
    CapabilityTable.infer_fullyConnected_iff.mpr ⟨d', k', some _, w', rfl, hflat, rfl⟩
  exact ⟨d', k', hd, hk, congrArg Except.toOption hrun⟩

theorem fused_plain (hm : plain.pattern.matchNode g root = some m)
    (e : plain.rewrite h m = .ok plan) :
    ∃ left bias x l extents, Fused h root plan left bias x l extents := by
  obtain ⟨n, w, b, d, k, value, hn, hkind, hin, ⟨y⟩, -, hbias, hreads⟩ :=
    reads_plain (R := .specs ht) (K := Tensor.spec) (fun t => by rfl) hnode hm e
  obtain ⟨w', b', old, hw, hb, -⟩ := hi.arithmetic ht hn List.mem_cons_self
    (Operation.eq_primitive .add (by simp) hkind) hin
  obtain rfl := hi.spec_constant ht hbias.constant hb
  obtain ⟨d', k', hd, hk, hrun⟩ := run_product ht hi y hbias hw
  obtain ⟨x, hreplacements, hx⟩ := hreads d' k' w' [] hd hk hb hrun
  obtain ⟨_, extents, hw', hshape, hlast⟩ := hbias.exists_extents
  obtain rfl := Option.some.inj (hw.symm.trans hw')
  exact ⟨w, value, x, w', extents, ⟨⟨n, b, hn, hkind, hin, hbias.constant⟩, hreplacements⟩, hw, hx,
    hshape, hbias.last, .inr hlast⟩

theorem fused_quantized (hm : quantized.pattern.matchNode g root = some m)
    (e : quantized.rewrite h m = .ok plan) :
    ∃ left bias x l extents, Fused h root plan left bias x l extents := by
  obtain ⟨n, z, b, n', w, s, d, k, value, hn, hkind, hin, hn', hkind', hin', ⟨y⟩, -, hstatic,
    hbias, hreads⟩ :=
    reads_quantized (R := .specs ht) (K := Tensor.spec) (fun t => by rfl) hnode hm e
  obtain ⟨z', b', old, hz, hb, -⟩ := hi.arithmetic ht hn List.mem_cons_self
    (Operation.eq_primitive .add (by simp) hkind) hin
  obtain rfl := hi.spec_constant ht hbias.constant hb
  obtain ⟨w', s', r, hw, hs, hscaled, hspecs⟩ := hi.arithmetic ht hn'
    (by simp) (Operation.eq_primitive .multiply (by simp) hkind') hin'
  obtain rfl := spec_eq_of_single hn' hspecs hz
  obtain ⟨d', k', hd, hk, hrun⟩ := run_product ht hi y hbias hw
  have hrun' : CapabilityTable.standard.infer (.primitive .multiply) [w', s'] = .ok [z'] :=
    (CapabilityTable.infer_arithmetic_iff (by simp)).mpr ⟨w', s', z', rfl, hscaled, rfl⟩
  obtain ⟨x, hreplacements, hx⟩ := hreads d' k' s' w' [] z' [] hd hk hs hb hrun
    (congrArg Except.toOption hrun')
  obtain ⟨_, extents, hw', hshape, hlast⟩ := hbias.exists_extents
  obtain rfl := Option.some.inj (hw.symm.trans hw')
  obtain ⟨extents', hshape', hlast'⟩ := rescaled_extents hscaled hstatic (spec?_of_nodes hnode ▸ hs)
    hshape hlast
  exact ⟨z, value, x, z', extents', ⟨⟨n, b, hn, hkind, hin, hbias.constant⟩, hreplacements⟩, hz, hx,
    hshape', hbias.last, hlast'⟩

end Fused

end Specs

/-- A bias fusion puts a value with the recorded spec of the left operand in the place of a sum.
That is the recorded spec of the sum exactly if the left operand absorbs the bias, and a bias that
is not empty is absorbed exactly if it has no more axes than the left operand. -/
theorem keeps_spec_iff {pass : PatternPass} (hpass : pass ∈ [plain, quantized])
    (ht : g.table = .standard) (hi : g.Inferred) (hm : pass.matchAt? g root = some m)
    (e : pass.rewrite (g.pinned m.nodes) m = .ok plan) :
    ∃ (n : Node Body) (left right : Value) (bias : Tensor) (x : Operand) (old new : Spec)
      (extents : List Extent),
      g.node? root = some n ∧ n.kind = .add ∧ n.inputs = [left, right] ∧
      ConstantFolding.constant? g right = some bias ∧
      plan.replacements = [(root.output 0, x)] ∧ g.spec? (root.output 0) = some old ∧
      plan.spec? (g.pinned m.nodes) x = some new ∧ g.spec? left = some new ∧
      new.shape = .ranked extents ∧ (new = old ↔ Absorbs extents bias.sizes) ∧
      (bias.data.size ≠ 0 → (new = old ↔ bias.sizes.length ≤ extents.length)) := by
  have hnode : (g.pinned m.nodes).node? = g.node? := node?_pinned
  have ht' : (g.pinned m.nodes).table = .standard := PatternPass.table_pinned.trans ht
  have hi' : (g.pinned m.nodes).Inferred :=
    hi.of_bare PatternPass.table_pinned PatternPass.bare?_pinned
  have hm := PatternPass.matchNode_of_matchAt? hm
  obtain ⟨left, bias, x, l, extents, hfused⟩ :
      ∃ left bias x l extents, Fused (g.pinned m.nodes) root plan left bias x l extents := by
    rcases List.mem_pair.mp hpass with rfl | rfl
    · exact fused_plain ht' hi' hnode hm e
    · exact fused_quantized ht' hi' hnode hm e
  obtain ⟨n, right, hn, hkind, hin, hconstant⟩ := hfused.sum
  obtain ⟨l', b', old, hl, hb, hsum, hspecs⟩ := hi'.arithmetic ht' hn List.mem_cons_self
    (Operation.eq_primitive .add (by simp) hkind) hin
  obtain rfl := Option.some.inj (hl.symm.trans hfused.left_spec)
  obtain rfl := hi'.spec_constant ht' hconstant hb
  rw [hnode] at hn hconstant
  rw [spec?_of_nodes hnode] at hl
  have hold : g.spec? (root.output 0) = some old := by
    rw [spec?_of_node? (v := root.output 0) hn, hspecs]
    rfl
  have habsorbs := arithmetic_constant hsum hfused.shape
  refine ⟨n, left, right, bias, x, old, l', extents, hn, hkind, hin, hconstant,
    hfused.replacements, hold, hfused.spec, hl, hfused.shape, habsorbs, fun hpos => ?_⟩
  rw [habsorbs]
  refine ⟨Absorbs.length_le, ?_⟩
  exact absorbs_of_length_le hfused.last bias.size_data.symm (Nat.pos_of_ne_zero hpos)
    hfused.channels

open Pipeline (slotOf first reader f32)

/-- A product with a constant of these sizes added to it, under this spec of the sum. -/
def biased (sizes : List Nat) (sum : Spec) : Graph where
  slots := #[
    slotOf (Primitive.parameter (f32 [2, 2])) [] [⟨f32 [2, 2], [reader 3 0]⟩],
    slotOf (Primitive.parameter (f32 [3, 2])) [] [⟨f32 [3, 2], [reader 3 1]⟩],
    slotOf (Primitive.constant (.splat .f32 sizes 1)) [] [⟨f32 sizes, [reader 4 1]⟩],
    slotOf Primitive.fullyConnected [first 0, first 1] [⟨f32 [2, 3], [reader 4 0]⟩],
    slotOf Primitive.add [first 3, first 2] [⟨sum, [reader 5 0]⟩],
    slotOf Primitive.result [first 4] []]
  free := []
  parameters := [⟨0, 0⟩, ⟨1, 0⟩]
  results := [⟨5, 0⟩]
  live := 6
  version := 0
  table := .standard

def biasedMatch : Match :=
  ⟨first 4, [⟨4, first 4, true⟩, ⟨2, first 3, true⟩, ⟨0, first 0, false⟩, ⟨1, first 1, false⟩,
    ⟨3, first 2, false⟩]⟩

/-- The product with the flat bias in the place of the sum. -/
def biasedPlan (bias : Tensor) : Plan Body where
  staged := [⟨Primitive.constant bias.flat, [], [f32 [3]], "", .empty⟩,
    ⟨Primitive.fullyConnected, [.graph (first 0), .graph (first 1), .staged 0 0], [f32 [2, 3]], "",
      .empty⟩]
  replacements := [(first 4, .staged 1 0)]
  sources := [⟨3, 0⟩, ⟨4, 0⟩]

/-- With a bias of two axes the spec is kept. -/
theorem keeps_spec_biased : (biased [1, 3] (f32 [2, 3])).Inferred ∧
    plain.matchAt? (biased [1, 3] (f32 [2, 3])) ⟨4, 0⟩ = some biasedMatch ∧
    plain.rewrite ((biased [1, 3] (f32 [2, 3])).pinned biasedMatch.nodes) biasedMatch =
      .ok (biasedPlan (.splat .f32 [1, 3] 1)) ∧
    ∃ x, (biasedPlan (.splat .f32 [1, 3] 1)).replacements = [(first 4, x)] ∧
      (biasedPlan (.splat .f32 [1, 3] 1)).spec?
        ((biased [1, 3] (f32 [2, 3])).pinned biasedMatch.nodes) x = some (f32 [2, 3]) := by
  have hi : (biased [1, 3] (f32 [2, 3])).Inferred := Arena.inferred_of_map (by rfl)
  have hm : plain.matchAt? (biased [1, 3] (f32 [2, 3])) ⟨4, 0⟩ = some biasedMatch := by rfl
  have e : plain.rewrite ((biased [1, 3] (f32 [2, 3])).pinned biasedMatch.nodes) biasedMatch =
      .ok (biasedPlan (.splat .f32 [1, 3] 1)) := by rfl
  refine ⟨hi, hm, e, ?_⟩
  obtain ⟨n, left, right, bias, x, old, new, extents, hn, -, hin, hbias, hreplacements, hold, hnew,
    hleft, hshape, -, hiff⟩ := keeps_spec_iff List.mem_cons_self rfl hi hm e
  obtain rfl := Option.some.inj hn
  obtain rfl : first 3 = left := (List.cons.inj hin).1
  obtain rfl := Option.some.inj hold
  obtain rfl := Option.some.inj hleft
  exact ⟨x, hreplacements, hnew⟩

/-- A bias of three axes, added to a product of two: the sum loses an axis. -/
theorem spec_lost_biased : (biased [1, 1, 3] (f32 [1, 2, 3])).WellFormed ∧
    (biased [1, 1, 3] (f32 [1, 2, 3])).Inferred ∧
    (biased [1, 1, 3] (f32 [1, 2, 3])).table = .standard ∧
    plain.matchAt? (biased [1, 1, 3] (f32 [1, 2, 3])) ⟨4, 0⟩ = some biasedMatch ∧
    plain.rewrite ((biased [1, 1, 3] (f32 [1, 2, 3])).pinned biasedMatch.nodes) biasedMatch =
      .ok (biasedPlan (.splat .f32 [1, 1, 3] 1)) ∧
    ∃ x, (biasedPlan (.splat .f32 [1, 1, 3] 1)).replacements = [(first 4, x)] ∧
      (biased [1, 1, 3] (f32 [1, 2, 3])).spec? (first 4) = some (f32 [1, 2, 3]) ∧
      (biasedPlan (.splat .f32 [1, 1, 3] 1)).spec?
        ((biased [1, 1, 3] (f32 [1, 2, 3])).pinned biasedMatch.nodes) x = some (f32 [2, 3]) ∧
      f32 [2, 3] ≠ f32 [1, 2, 3] :=
  ⟨Arena.wellFormed_of_validate (by cbv) (by decide) (by decide) (by decide)
    (fun _ h => absurd h List.not_mem_nil) (by cbv), Arena.inferred_of_map (by rfl), rfl,
    by rfl, by rfl, .staged 1 0, rfl, rfl, rfl, by decide⟩

end BiasFusion

end TensorGraph
