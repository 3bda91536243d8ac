import TensorGraph.Proofs.Exact.Product
import TensorGraph.Proofs.Pass.FusionSpecs

/-! # Values of fused products

Over the rationals a product with a bias is the sum that it replaces. With a rescaling in between
the bias is rescaled too: the value moves by the bias times what the scale exceeds one by.
-/

namespace TensorGraph

open Arena

/-! ### Broadcast sizes -/

section Sizes

variable {sizes coords left right joined : List Nat} {n : Nat}

theorem broadcastSizes_absorbed (h : broadcastSizes left sizes = some joined)
    (hlast : sizes.getLast? = some n) (hcount : entryCount sizes = n) (hpos : 0 < n)
    (hleft : n = 1 ∨ left.getLast? = some n) (hle : sizes.length ≤ left.length) :
    joined = left := by
  have habsorbs : Absorbs (left.map .known) sizes :=
    absorbs_of_length_le hlast hcount hpos (hleft.imp_right fun h => by simp [h]) (by simpa)
  have hknown := (broadcastExtents_eq_self_iff (Inferred.broadcastSizes_known h)).mpr habsorbs
  exact List.map_injective_iff.mpr (fun _ _ => Extent.known.inj) hknown

theorem getLast?_broadcastSizes (h : broadcastSizes left right = some joined)
    (hlast : left.getLast? = some n) : n = 1 ∨ joined.getLast? = some n := by
  have hextents := getLast?_broadcastExtents (Inferred.broadcastSizes_known h) (n := n)
    (by simp [hlast])
  exact hextents.imp_right fun h => by simpa using h

theorem length_le_of_within_broadcast (h : Within sizes (broadcastCoordinates sizes coords)) :
    sizes.length ≤ coords.length := by
  have hlen := h.length
  rw [broadcastCoordinates, List.length_zipWith, List.length_drop] at hlen
  omega

theorem getLast?_broadcastCoordinates (hlast : sizes.getLast? = some n)
    (hle : sizes.length ≤ coords.length) : (broadcastCoordinates sizes coords).getLast? =
      coords.getLast?.map fun a => if n = 1 then 0 else a := by
  obtain ⟨init, rfl⟩ := List.getLast?_eq_some_iff.mp hlast
  obtain rfl | ⟨cs, a, rfl⟩ := coords.eq_nil_or_concat'
  · simp at hle
  · rw [broadcastCoordinates_concat (by simpa using hle)]
    simp

theorem getLast?_eq_position (h : Within sizes coords) (hlast : sizes.getLast? = some n)
    (hcount : entryCount sizes = n) (hpos : 0 < n) :
    coords.getLast? = some (position sizes coords) := by
  obtain ⟨init, rfl⟩ := List.getLast?_eq_some_iff.mp hlast
  have hinit : entryCount init = 1 := by
    rw [entryCount_concat] at hcount
    exact Nat.eq_of_mul_eq_mul_right hpos (hcount.trans (Nat.one_mul n).symm)
  clear hcount hlast
  induction init generalizing coords with
  | nil =>
    obtain ⟨c, cs, hc, hcs, rfl⟩ := List.forall₂_cons_right_iff.mp h
    obtain rfl := List.forall₂_nil_right_iff.mp hcs
    simp [position, entryCount]
  | cons m init ih =>
    obtain ⟨rfl, hrest⟩ := mul_eq_one.mp hinit
    obtain ⟨c, cs, hc, hcs, rfl⟩ := List.forall₂_cons_right_iff.mp h
    obtain rfl := Nat.lt_one_iff.mp hc
    have hlast := ih hcs hrest
    simp only [List.cons_append, position, Nat.zero_mul, Nat.zero_add]
    rw [List.getLast?_cons, hlast, Option.getD_some]

theorem getLast?_of_refines {extents : List Extent}
    (h : (Shape.ofSizes sizes).Refines (.ranked extents))
    (hlast : extents.getLast? = some (.known n)) : sizes.getLast? = some n := by
  obtain - | h := h
  have hreverse := List.rel_reverse h
  rw [← List.map_reverse] at hreverse
  rw [List.getLast?_eq_head?_reverse] at hlast ⊢
  generalize sizes.reverse = ns, extents.reverse = es at hlast hreverse
  cases hreverse' : ns with
  | nil =>
    rw [hreverse', List.map_nil] at hreverse
    obtain rfl := List.forall₂_nil_left_iff.mp hreverse
    cases hlast
  | cons m ns =>
    rw [hreverse', List.map_cons] at hreverse
    obtain ⟨e, es, he, -, rfl⟩ := List.forall₂_cons_left_iff.mp hreverse
    obtain rfl := Option.some.inj hlast
    cases he
    rfl

end Sizes

namespace BiasFusion

variable {g h : Graph} {root : NodeId} {m : Match} {plan : Plan Body} {ρ : Float → ℚ}
variable {σ : Value → Option (Grid ℚ)} {bias : Tensor} {u z r s t : Grid ℚ} {coords : List Nat}
variable {q b : ℚ}

/-- Values under the sizes that are recorded for them. -/
def Fits (g : Graph) (σ : Value → Option (Grid ℚ)) : Prop :=
  ∀ v spec x, g.spec? v = some spec → σ v = some x → (Shape.ofSizes x.sizes).Refines spec.shape

theorem fits_of_all {values : Nat → List (Grid ℚ)} (h : (g.nodeIds.all fun x =>
      (g.node? x).all fun n => (n.specs.zip (values x.index)).all fun y =>
        y.1.shape == .ofSizes y.2.sizes) = true) :
    Fits g fun v => (values v.node.index)[v.port]? := by
  intro v spec x hspec hx
  have hlive : g.contains v.node = true := contains_of_spec? hspec
  obtain ⟨n, hn⟩ := contains_iff.mp hlive
  rw [spec?_of_node? hn] at hspec
  have hall := List.all_eq_true.mp h v.node (mem_nodeIds_iff.mpr ⟨n, hn⟩)
  rw [hn, Option.all_some, List.all_eq_true] at hall
  have hzip : (n.specs.zip (values v.node.index))[v.port]? = some (spec, x) :=
    List.getElem?_zip_eq_some.mpr ⟨hspec, hx⟩
  have hshape : spec.shape = .ofSizes x.sizes :=
    beq_iff_eq.mp (hall (spec, x) (List.mem_of_getElem? hzip))
  rw [hshape]
  exact .rfl

/-! ### Sums with a constant -/

section Sums

variable (hlast : bias.sizes.getLast? = some bias.data.size)
include hlast

theorem data_pos (hb : (Grid.ofTensor ρ bias).stretched? coords = some b) :
    0 < bias.data.size := by
  obtain ⟨a, -, ha⟩ := (Grid.within_of_read? hb).exists_getLast? hlast
  exact Nat.zero_lt_of_lt ha

theorem stretched_addBias (ht : Grid.addBias? u (.ofTensor ρ bias.flat) = some t)
    (hp : u.stretched? coords = some q) (hb : (Grid.ofTensor ρ bias).stretched? coords = some b) :
    t.stretched? coords = some (q + b) := by
  obtain ⟨hchannels, hsizes, hread⟩ := Grid.addBias?_eq_some_iff.mp ht
  have hflat : (Grid.ofTensor ρ bias.flat).data = bias.data.toList.map ρ := rfl
  have hu : u.sizes.getLast? = some bias.data.size := by simpa [hflat] using hchannels
  have hwithin := Grid.within_of_read? hp
  have hwithin' : Within bias.sizes (broadcastCoordinates bias.sizes coords) :=
    Grid.within_of_read? hb
  have hposition := getLast?_eq_position hwithin' hlast bias.size_data.symm (data_pos hlast hb)
  have hcoords : (broadcastCoordinates u.sizes coords).getLast? =
      some (position bias.sizes (broadcastCoordinates bias.sizes coords)) := by
    rw [getLast?_broadcastCoordinates hu (length_le_of_within_broadcast hwithin),
      ← getLast?_broadcastCoordinates hlast (length_le_of_within_broadcast hwithin'), hposition]
  have hvalue : (bias.data.toList.map ρ)[position bias.sizes
      (broadcastCoordinates bias.sizes coords)]? = some b :=
    (Grid.read?_of_within hwithin').symm.trans hb
  rw [Grid.stretched?] at hp ⊢
  rw [hsizes, ← hread _ hwithin, hp, hcoords, hflat]
  simp only [Option.bind_eq_bind, Option.bind_some, hvalue]
  rfl

theorem sizes_sum (hs : broadcastSizes z.sizes bias.sizes = some s.sizes)
    (hz : bias.data.size = 1 ∨ z.sizes.getLast? = some bias.data.size)
    (hle : bias.sizes.length ≤ z.sizes.length) (hpos : 0 < bias.data.size) : s.sizes = z.sizes :=
  broadcastSizes_absorbed hs hlast bias.size_data.symm hpos hz hle

end Sums

theorem read_zipWith {f : ℚ → ℚ → ℚ} (hs : Grid.zipWith? (fun a b => some (f a b)) z r = some s)
    (hq : s.read? coords = some q) : ∃ a b, z.stretched? coords = some a ∧
      r.stretched? coords = some b ∧ q = f a b := by
  have hentry := (Grid.zipWith?_eq_some_iff.mp hs).2 coords (Grid.within_of_read? hq)
  rw [hq] at hentry
  obtain ⟨a, ha, hentry⟩ := Option.bind_eq_some_iff.mp hentry
  obtain ⟨b, hb, hentry⟩ := Option.bind_eq_some_iff.mp hentry
  exact ⟨a, b, ha, hb, (Option.some.inj hentry).symm⟩

theorem exists_zipWith {f : ℚ → ℚ → ℚ} (hz : Grid.zipWith? (fun a b => some (f a b)) u r = some z)
    (hsizes : t.sizes = u.sizes) :
    ∃ s, Grid.zipWith? (fun a b => some (f a b)) t r = some s ∧ s.sizes = z.sizes := by
  obtain ⟨hjoined, hread⟩ := Grid.zipWith?_eq_some_iff.mp hz
  obtain ⟨s, hs⟩ : ∃ s, Grid.build? z.sizes (fun coords => do
      some (f (← t.stretched? coords) (← r.stretched? coords))) = some s := by
    refine Grid.exists_build? fun coords hc => ?_
    obtain ⟨q, hq⟩ := Grid.exists_read? hc
    obtain ⟨a, b, ha, hb, -⟩ := read_zipWith hz hq
    obtain ⟨c, hc⟩ : ∃ c, t.stretched? coords = some c :=
      Grid.exists_read? (by rw [hsizes]; exact Grid.within_of_read? ha)
    exact ⟨f c b, by simp [hc, hb]⟩
  obtain ⟨hsizes', hread'⟩ := Grid.build?_eq_some_iff.mp hs
  refine ⟨s, Grid.zipWith?_eq_some_iff.mpr ⟨?_, fun coords hc => hread' coords (hsizes' ▸ hc)⟩,
    hsizes'⟩
  rw [hsizes, hjoined, hsizes']

/-! ### What takes the place of a sum -/

def kinds : List Kind := [.constant, .fullyConnected, .multiply, .add]

section Fused

variable {w d k v l x : Value} {n : Node Body} {product : Grid ℚ}
variable (hσ : h.Computes (exact ρ) kinds σ)
include hσ

theorem value_constant (hv : (h.node? v.node).bind (fun n => n.op.constant?) = some bias)
    (hd : σ v = some u) : u = .ofTensor ρ bias := by
  obtain ⟨n, hn, hop⟩ := Option.bind_eq_some_iff.mp hv
  have hop := Operation.constant?_eq_some_iff.mp hop
  obtain ⟨ds, outs, -, hrun, hport⟩ := hσ.exists_inputs hn hop List.mem_cons_self hd
  cases ds with
  | nil =>
    obtain rfl := Option.some.inj hrun
    rw [List.getElem?_singleton] at hport
    split at hport
    · exact (Option.some.inj hport).symm
    · cases hport
  | cons _ _ => cases hrun

theorem value_pair {p : Primitive} {f : Grid ℚ → Grid ℚ → Option (Grid ℚ)}
    (hf : ∀ a b, exact ρ p [a, b] = do return [← f a b]) (hp : p.kind ∈ kinds)
    (hn : h.node? v.node = some n) (hop : n.op = .primitive p) (hin : n.inputs = [l, x])
    (hd : σ v = some u) : ∃ a b, σ l = some a ∧ σ x = some b ∧ f a b = some u := by
  obtain ⟨ds, outs, hds, hrun, hport⟩ := hσ.exists_inputs hn hop hp hd
  rw [hin] at hds
  obtain ⟨a, ds, rfl⟩ := List.exists_cons_of_length_eq_add_one
    (show ds.length = 1 + 1 by simpa using (congrArg List.length hds).symm)
  obtain ⟨b, ds, rfl⟩ := List.exists_cons_of_length_eq_add_one
    (show ds.length = 0 + 1 by simpa using (congrArg List.length hds).symm)
  obtain ⟨ha, hds⟩ := List.cons.inj hds
  obtain ⟨hb, hds⟩ := List.cons.inj hds
  obtain rfl := List.map_eq_nil_iff.mp hds.symm
  rw [hf] at hrun
  obtain ⟨c, hc, hrun⟩ := Option.bind_eq_some_iff.mp hrun
  obtain rfl := Option.some.inj hrun
  rw [List.getElem?_singleton] at hport
  split at hport
  · exact ⟨a, b, ha, hb, hc.trans hport⟩
  · cases hport

theorem value_product (hfits : Fits h σ) (y : Product h w d k) (hb : Bias h w v bias)
    (hw : σ w = some product) : ∃ a b t, σ d = some a ∧ σ k = some b ∧
      product.sizes.getLast? = some bias.data.size ∧
      Grid.addBias? product (.ofTensor ρ bias.flat) = some t ∧
      exact ρ .fullyConnected [a, b, .ofTensor ρ bias.flat] = some [t] := by
  obtain ⟨a, b, ha, hk, hproduct⟩ := value_pair hσ (fun _ _ => rfl) (by decide) y.node?_eq
    (Operation.eq_primitive .fullyConnected (by simp) y.kind) y.inputs hw
  obtain ⟨spec, extents, hspec, hshape, hlast⟩ := hb.exists_extents
  have hsizes : product.sizes.getLast? = some bias.data.size := by
    have hrefines := hfits w spec product hspec hw
    exact getLast?_of_refines (hshape ▸ hrefines) hlast
  have hflat : (Grid.ofTensor ρ bias.flat).data.length = bias.data.size := by
    simp [Grid.ofTensor, Tensor.flat]
  obtain ⟨t, ht⟩ := Grid.exists_addBias? (hsizes.trans (congrArg some hflat.symm))
  refine ⟨a, b, t, ha, hk, hsizes, ht, ?_⟩
  simp only [exact, hproduct, ht, Option.bind_eq_bind, Option.bind_some]
  rfl

variable (hnode : h.node? = g.node?) (hfits : Fits h σ)
include hnode hfits

theorem value_plain (hm : plain.pattern.matchNode g root = some m)
    (e : plain.rewrite h m = .ok plan) (hs : σ (root.output 0) = some s) :
    ∃ left bias x z, Replaces h root plan left bias x ∧ σ left = some z ∧
      (bias.sizes.length ≤ z.sizes.length → ∃ t, plan.value? (exact ρ) σ x = some t ∧
        (bias.data.size ≠ 0 → t.sizes = s.sizes) ∧
        ∀ coords q, s.read? coords = some q → t.read? coords = some q) := by
  obtain ⟨n, w, b, d, k, bias, hn, hkind, hin, ⟨y⟩, -, hbias, hreads⟩ :=
    reads_plain (R := .values h (exact ρ) σ) (K := .ofTensor ρ) (fun t => rfl) hnode hm e
  obtain ⟨z, b', hz, hb, hsum⟩ := value_pair hσ (fun _ _ => rfl) (by decide) hn
    (Operation.eq_primitive .add (by simp) hkind) hin hs
  obtain rfl := value_constant hσ hbias.constant hb
  obtain ⟨d', k', t, hd, hk, hchannels, ht, hrun⟩ := value_product hσ hfits y hbias hz
  obtain ⟨x, hreplacements, hx⟩ := hreads d' k' t [] hd hk hb hrun
  have htsizes := (Grid.addBias?_eq_some_iff.mp ht).2.1
  have hsizes := sizes_sum (s := s) hbias.last (Grid.zipWith?_eq_some_iff.mp hsum).1
    (.inr hchannels)
  refine ⟨w, bias, x, z, ⟨⟨n, b, hn, hkind, hin, hbias.constant⟩, hreplacements⟩, hz,
    fun hle => ⟨t, hx, fun hne => ?_, fun coords q hq => ?_⟩⟩
  · rw [htsizes, hsizes hle (Nat.pos_of_ne_zero hne)]
  · obtain ⟨a, c, ha, hc, rfl⟩ := read_zipWith hsum hq
    have hread := stretched_addBias hbias.last ht ha hc
    rwa [Grid.stretched?, broadcastCoordinates_self] at hread
    rw [htsizes, ← hsizes hle (data_pos hbias.last hc)]
    exact Grid.within_of_read? hq

theorem value_quantized (hm : quantized.pattern.matchNode g root = some m)
    (e : quantized.rewrite h m = .ok plan) (hs : σ (root.output 0) = some s) :
    ∃ left bias x z n' w c r, Replaces h root plan left bias x ∧ σ left = some z ∧
      h.node? left.node = some n' ∧ n'.kind = .multiply ∧ n'.inputs = [w, c] ∧ σ c = some r ∧
      (bias.sizes.length ≤ z.sizes.length → ∃ t, plan.value? (exact ρ) σ x = some t ∧
        (bias.data.size ≠ 0 → t.sizes = s.sizes) ∧
        ∀ coords q, s.read? coords = some q → ∃ b a,
          (Grid.ofTensor ρ bias).stretched? coords = some b ∧ r.stretched? coords = some a ∧
          t.read? coords = some (q + b * (a - 1)) ∧
          (t.read? coords = some q ↔ b = 0 ∨ a = 1)) := by
  obtain ⟨n, z, b, n', w, c, d, k, bias, hn, hkind, hin, hn', hkind', hin', ⟨y⟩, -, -, hbias,
    hreads⟩ :=
    reads_quantized (R := .values h (exact ρ) σ) (K := .ofTensor ρ) (fun t => rfl) hnode hm e
  obtain ⟨z', b', hz, hb, hsum⟩ := value_pair hσ (fun _ _ => rfl) (by decide) hn
    (Operation.eq_primitive .add (by simp) hkind) hin hs
  obtain rfl := value_constant hσ hbias.constant hb
  obtain ⟨u, r, hw, hr, hscaled⟩ := value_pair hσ (fun _ _ => rfl) (by decide) hn'
    (Operation.eq_primitive .multiply (by simp) hkind') hin' hz
  obtain ⟨d', k', t, hd, hk, hchannels, ht, hrun⟩ := value_product hσ hfits y hbias hw
  obtain ⟨s', hs', hsizes'⟩ := exists_zipWith hscaled (Grid.addBias?_eq_some_iff.mp ht).2.1
  have hrun' : exact ρ .multiply [t, r] = some [s'] := by
    simp only [exact, hs', Option.bind_eq_bind, Option.bind_some]
    rfl
  obtain ⟨x, hreplacements, hx⟩ := hreads d' k' r t [] s' [] hd hk hr hb hrun hrun'
  have hsizes := sizes_sum (s := s) hbias.last (Grid.zipWith?_eq_some_iff.mp hsum).1
    (getLast?_broadcastSizes (Grid.zipWith?_eq_some_iff.mp hscaled).1 hchannels)
  refine ⟨z, bias, x, z', n', w, c, r, ⟨⟨n, b, hn, hkind, hin, hbias.constant⟩, hreplacements⟩, hz,
    hn', hkind', hin', hr, fun hle => ⟨s', hx, fun hne => ?_, fun coords q hq => ?_⟩⟩
  · rw [hsizes', hsizes hle (Nat.pos_of_ne_zero hne)]
  obtain ⟨p, c, hp, hc, rfl⟩ := read_zipWith hsum hq
  have hwithin : Within z'.sizes coords :=
    hsizes hle (data_pos hbias.last hc) ▸ Grid.within_of_read? hq
  have hpread : z'.read? coords = some p := by
    rwa [Grid.stretched?, broadcastCoordinates_self hwithin] at hp
  obtain ⟨f, a, hf, ha, rfl⟩ := read_zipWith hscaled hpread
  obtain ⟨q, hq'⟩ := Grid.exists_read? (hsizes'.symm ▸ hwithin)
  obtain ⟨f', a', hf', ha', rfl⟩ := read_zipWith hs' hq'
  obtain rfl := Option.some.inj ((stretched_addBias hbias.last ht hf hc).symm.trans hf')
  obtain rfl := Option.some.inj (ha.symm.trans ha')
  have hvalue : (f + c) * a = f * a + c + c * (a - 1) := by ring
  refine ⟨c, a, hc, ha, hq'.trans (congrArg some hvalue), ?_⟩
  rw [hq', hvalue, Option.some.injEq, add_eq_left, mul_eq_zero, sub_eq_zero]

end Fused

theorem Replaces.of_nodes {left : Value} {x : Operand} (hnode : h.node? = g.node?)
    (hr : Replaces h root plan left bias x) : Replaces g root plan left bias x :=
  ⟨hnode ▸ hr.sum, hr.replacements⟩

/-- Whatever the values of the operands are, the plain fusion keeps the value of the sum at every
coordinate. The fusion under a rescaling puts `(product + bias) * scale` in the place of
`product * scale + bias`, which is the same exactly where the bias is zero or the scale is one. -/
theorem keeps_value (hσ : g.Computes (exact ρ) kinds σ) (hfits : Fits g σ) :
    (∀ root m plan s, plain.matchAt? g root = some m →
      plain.rewrite (g.pinned m.nodes) m = .ok plan → σ (root.output 0) = some s →
      ∃ left bias x z, Replaces g root plan left bias x ∧ σ left = some z ∧
        (bias.sizes.length ≤ z.sizes.length → ∃ t, plan.value? (exact ρ) σ x = some t ∧
          (bias.data.size ≠ 0 → t.sizes = s.sizes) ∧
          ∀ coords q, s.read? coords = some q → t.read? coords = some q)) ∧
    ∀ root m plan s, quantized.matchAt? g root = some m →
      quantized.rewrite (g.pinned m.nodes) m = .ok plan → σ (root.output 0) = some s →
      ∃ left bias x z n w c r, Replaces g root plan left bias x ∧ σ left = some z ∧
        g.node? left.node = some n ∧ n.kind = .multiply ∧ n.inputs = [w, c] ∧ σ c = some r ∧
        (bias.sizes.length ≤ z.sizes.length → ∃ t, plan.value? (exact ρ) σ x = some t ∧
          (bias.data.size ≠ 0 → t.sizes = s.sizes) ∧
          ∀ coords q, s.read? coords = some q → ∃ b a,
            (Grid.ofTensor ρ bias).stretched? coords = some b ∧ r.stretched? coords = some a ∧
            t.read? coords = some (q + b * (a - 1)) ∧
            (t.read? coords = some q ↔ b = 0 ∨ a = 1)) := by
  have hnode (m : Match) : (g.pinned m.nodes).node? = g.node? := node?_pinned
  have hσ' (m : Match) : (g.pinned m.nodes).Computes (exact ρ) kinds σ := by
    rwa [Computes, hnode m]
  have hfits' (m : Match) : Fits (g.pinned m.nodes) σ := by
    rwa [Fits, spec?_of_nodes (hnode m)]
  constructor
  · intro root m plan s hm e hs
    obtain ⟨left, bias, x, z, hr, h⟩ := value_plain (hσ' m) (hnode m) (hfits' m)
      (PatternPass.matchNode_of_matchAt? hm) e hs
    exact ⟨left, bias, x, z, hr.of_nodes (hnode m), h⟩
  · intro root m plan s hm e hs
    obtain ⟨left, bias, x, z, n, w, c, r, hr, hz, hn, h⟩ := value_quantized (hσ' m) (hnode m)
      (hfits' m) (PatternPass.matchNode_of_matchAt? hm) e hs
    exact ⟨left, bias, x, z, n, w, c, r, hr.of_nodes (hnode m), hz, hnode m ▸ hn, h⟩

/-! ### A sum under a rescaling -/

open Pipeline (slotOf first reader f32)

/-- A product with a constant added to it, and the same product rescaled before. -/
def rescaled : Graph where
  slots := #[
    slotOf (Primitive.parameter (f32 [1, 1])) [] [⟨f32 [1, 1], [reader 4 0, reader 8 0]⟩],
    slotOf (Primitive.parameter (f32 [1, 1])) [] [⟨f32 [1, 1], [reader 4 1, reader 8 1]⟩],
    slotOf (Primitive.parameter (f32 [1, 1])) [] [⟨f32 [1, 1], [reader 5 1]⟩],
    slotOf (Primitive.constant (.splat .f32 [1] 1)) [] [⟨f32 [1], [reader 6 1, reader 9 1]⟩],
    slotOf Primitive.fullyConnected [first 0, first 1] [⟨f32 [1, 1], [reader 5 0]⟩],
    slotOf Primitive.multiply [first 4, first 2] [⟨f32 [1, 1], [reader 6 0]⟩],
    slotOf Primitive.add [first 5, first 3] [⟨f32 [1, 1], [reader 7 0]⟩],
    slotOf Primitive.result [first 6] [],
    slotOf Primitive.fullyConnected [first 0, first 1] [⟨f32 [1, 1], [reader 9 0]⟩],
    slotOf Primitive.add [first 8, first 3] [⟨f32 [1, 1], [reader 10 0]⟩],
    slotOf Primitive.result [first 9] []]
  free := []
  parameters := [⟨0, 0⟩, ⟨1, 0⟩, ⟨2, 0⟩]
  results := [⟨7, 0⟩, ⟨10, 0⟩]
  live := 11
  version := 0
  table := .standard

def single (q : ℚ) : Grid ℚ := ⟨[1, 1], [q], rfl⟩

def rescaledValues : Nat → List (Grid ℚ)
  | 0 => [single 1]
  | 1 => [single 1]
  | 2 => [single 2]
  | 3 => [⟨[1], [1], rfl⟩]
  | 4 => [single 1]
  | 5 => [single 2]
  | 6 => [single 3]
  | 8 => [single 1]
  | 9 => [single 2]
  | _ => []

/-- The scale is two and everything else that is given is one. -/
def rescaledValue (v : Value) : Option (Grid ℚ) := (rescaledValues v.node.index)[v.port]?

theorem computes_rescaled : rescaled.Computes (exact fun _ => 1) kinds rescaledValue :=
  computes_of_computed (by decide +kernel)

theorem fits_rescaled : Fits rescaled rescaledValue := fits_of_all (by decide +kernel)

def plainMatch : Match :=
  ⟨first 9, [⟨4, first 9, true⟩, ⟨2, first 8, true⟩, ⟨0, first 0, false⟩, ⟨1, first 1, false⟩,
    ⟨3, first 3, false⟩]⟩

def plainPlan : Plan Body where
  staged := [⟨Primitive.fullyConnected, [.graph (first 0), .graph (first 1), .graph (first 3)],
    [f32 [1, 1]], "", .empty⟩]
  replacements := [(first 9, .staged 0 0)]
  sources := [⟨8, 0⟩, ⟨9, 0⟩]

def rescaledMatch : Match :=
  ⟨first 6, [⟨6, first 6, true⟩, ⟨4, first 5, true⟩, ⟨2, first 4, true⟩, ⟨0, first 0, false⟩,
    ⟨1, first 1, false⟩, ⟨3, first 2, false⟩, ⟨5, first 3, false⟩]⟩

def rescaledPlan : Plan Body where
  staged := [⟨Primitive.fullyConnected, [.graph (first 0), .graph (first 1), .graph (first 3)],
      [f32 [1, 1]], "", .empty⟩,
    ⟨Primitive.multiply, [.staged 0 0, .graph (first 2)], [f32 [1, 1]], "", .empty⟩]
  replacements := [(first 6, .staged 1 0)]
  sources := [⟨4, 0⟩, ⟨5, 0⟩, ⟨6, 0⟩]

theorem matchAt?_rescaled : quantized.matchAt? rescaled ⟨6, 0⟩ = some rescaledMatch ∧
    quantized.rewrite (rescaled.pinned rescaledMatch.nodes) rescaledMatch = .ok rescaledPlan :=
  ⟨by rfl, by rfl⟩

theorem keeps_value_rescaled :
    (∃ x t, plainPlan.replacements = [(first 9, x)] ∧
      plainPlan.value? (exact fun _ => 1) rescaledValue x = some t ∧ t.read? [0, 0] = some 2) ∧
    ∃ x t, rescaledPlan.replacements = [(first 6, x)] ∧
      rescaledPlan.value? (exact fun _ => 1) rescaledValue x = some t ∧
      t.read? [0, 0] = some (3 + 1 * (2 - 1)) := by
  obtain ⟨hplain, hquantized⟩ := keeps_value computes_rescaled fits_rescaled
  constructor
  · obtain ⟨left, bias, x, z, hr, hz, h⟩ :=
      hplain ⟨9, 0⟩ plainMatch plainPlan (single 2) (by rfl) (by rfl) rfl
    obtain ⟨n, right, hn, -, hin, hb⟩ := hr.sum
    obtain rfl := Option.some.inj hn
    obtain rfl : first 8 = left := (List.cons.inj hin).1
    obtain rfl : first 3 = right := (List.cons.inj (List.cons.inj hin).2).1
    obtain rfl := Option.some.inj hb
    obtain rfl := Option.some.inj hz
    obtain ⟨t, ht, -, hread⟩ := h (by decide)
    exact ⟨x, t, hr.replacements, ht, hread [0, 0] 2 (by decide)⟩
  · obtain ⟨left, bias, x, z, n', w, c, r, hr, hz, hn', -, hin', hc, h⟩ := hquantized ⟨6, 0⟩
      rescaledMatch rescaledPlan (single 3) matchAt?_rescaled.1 matchAt?_rescaled.2 rfl
    obtain ⟨n, right, hn, -, hin, hb⟩ := hr.sum
    obtain rfl := Option.some.inj hn
    obtain rfl : first 5 = left := (List.cons.inj hin).1
    obtain rfl : first 3 = right := (List.cons.inj (List.cons.inj hin).2).1
    obtain rfl := Option.some.inj hn'
    obtain rfl : first 2 = c := (List.cons.inj (List.cons.inj hin').2).1
    obtain rfl := Option.some.inj hb
    obtain rfl := Option.some.inj hz
    obtain rfl := Option.some.inj hc
    obtain ⟨t, ht, -, hread⟩ := h (by decide)
    obtain ⟨b, a, hb, ha, hvalue, -⟩ := hread [0, 0] 3 (by decide)
    obtain rfl : 1 = b := Option.some.inj hb
    obtain rfl : 2 = a := Option.some.inj ha
    exact ⟨x, t, hr.replacements, ht, hvalue⟩

/-- With a bias of one and a scale of two the value goes from three to four. -/
theorem value_changed_rescaled : rescaled.WellFormed ∧
    quantized.matchAt? rescaled ⟨6, 0⟩ = some rescaledMatch ∧
    quantized.rewrite (rescaled.pinned rescaledMatch.nodes) rescaledMatch = .ok rescaledPlan ∧
    rescaled.Computes (exact fun _ => 1) kinds rescaledValue ∧ Fits rescaled rescaledValue ∧
    rescaledValue (first 5) = some (single 2) ∧ [1].length ≤ (single 2).sizes.length ∧
    rescaledValue (first 6) = some (single 3) ∧
    rescaledPlan.replacements = [(first 6, .staged 1 0)] ∧
    rescaledPlan.value? (exact fun _ => 1) rescaledValue (.staged 1 0) = some (single 4) ∧
    (single 4).read? [0, 0] ≠ (single 3).read? [0, 0] :=
  ⟨Arena.wellFormed_of_validate (by cbv) (by decide) (by decide) (by decide)
    (fun _ h => absurd h List.not_mem_nil) (by cbv), matchAt?_rescaled.1, matchAt?_rescaled.2,
    computes_rescaled, fits_rescaled, rfl, by decide, rfl, rfl, by decide +kernel, by decide⟩

end BiasFusion

end TensorGraph
