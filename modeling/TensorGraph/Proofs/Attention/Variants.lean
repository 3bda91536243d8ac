import TensorGraph.Attention.Pass
import TensorGraph.Proofs.Attention.Recognition
import TensorGraph.Proofs.Pass.FixedPoint

/-! # The place of a variant

At every product the variants are tried in order, and the first that fits is taken. A product that
the quantized variant fits carries accumulated integers, while the other variants ask for floats, so
the quantized variant never competes with another one and may stand anywhere among them.
-/

namespace TensorGraph

open Attention

variable {g : Graph} {u v w : Value} {kinds : List Kind} {operands : List Value}

/-! ### Element types -/

theorem ElementType.isInteger_of_isQuantized {t : ElementType} (h : t.isQuantized = true) :
    t.isInteger = true := by
  cases t <;> first | rfl | cases h

theorem Inferred.productType_of_quantized {s t : ElementType} (hs : s.isQuantized = true)
    (ht : t.isQuantized = true) : productType s t = .ok .i32 := by
  simp [productType, ElementType.isInteger_of_isQuantized hs,
    ElementType.isInteger_of_isQuantized ht, pure, Except.pure]

namespace Arena

/-- What inference says of the types of an operation, read off a value that comes out of it. -/
theorem Typed.applies (ht : g.Typed) (h : g.Applies kinds operands v) :
    ∃ (op : Operation Body) (outs : List ElementType), op.kind ∈ kinds ∧
      op.Types (operands.map g.type?) outs ∧ outs[v.port]? = g.type? v ∧ v.port < outs.length := by
  obtain ⟨n, hn, hk, hport, rfl⟩ := h
  refine ⟨n.op, n.specs.map Spec.elementType, hk, ht.node hn, (type?_of_node? hn v.port).symm, ?_⟩
  simpa [Node.specs] using hport

theorem Typed.type?_quantize (ht : g.Typed) (h : g.Applies [.quantize] [u] v) :
    ∃ t, g.type? v = some t ∧ t.isQuantized = true := by
  obtain ⟨op, outs, hk, htypes, hv, hport⟩ := ht.applies h
  obtain ⟨-, t, -, rfl, hquantized⟩ := htypes.quantize (List.mem_singleton.mp hk)
  obtain hzero : v.port = 0 := Nat.lt_one_iff.mp hport
  rw [hzero] at hv
  exact ⟨t, hv.symm, hquantized⟩

theorem Typed.type?_transpose (ht : g.Typed) (h : g.Applies [.transpose] [u] v) :
    g.type? v = g.type? u := by
  obtain ⟨op, outs, hk, htypes, hv, hport⟩ := ht.applies h
  rw [List.mem_singleton] at hk
  obtain ⟨t, hins, rfl⟩ := htypes.keep (by simp [hk])
  obtain hzero : v.port = 0 := Nat.lt_one_iff.mp hport
  rw [hzero] at hv
  exact hv.symm.trans (List.cons.inj hins).1.symm

theorem Typed.type?_matMul (ht : g.Typed) (h : g.Applies [.matMul] [u, w] v) :
    ∃ s t o, g.type? u = some s ∧ g.type? w = some t ∧ g.type? v = some o ∧
      Inferred.productType s t = .ok o := by
  obtain ⟨op, outs, hk, htypes, hv, hport⟩ := ht.applies h
  obtain ⟨s, t, o, hins, rfl, ho⟩ := htypes.matMul (List.mem_singleton.mp hk)
  obtain hzero : v.port = 0 := Nat.lt_one_iff.mp hport
  rw [hzero] at hv
  obtain ⟨hs, hins⟩ := List.cons.inj hins
  exact ⟨s, t, o, hs, (List.cons.inj hins).1, hv.symm, ho⟩

end Arena

namespace Attention

variable {c c' : Config}

namespace Motif

variable {out scores query key value : Value}

theorem QuantizedOperand.exists_type (h : QuantizedOperand g v) (ht : g.Typed) :
    ∃ t, g.type? v = some t ∧ t.isQuantized = true := by
  rcases h with ⟨w, h⟩ | ⟨u, w, hturned, h⟩
  · exact ht.type?_quantize h
  · rw [ht.type?_transpose hturned]
    exact ht.type?_quantize h

theorem AttendsQuantized.type?_out (h : AttendsQuantized g out scores query key value)
    (ht : g.Typed) : g.type? out = some .i32 := by
  obtain ⟨requantized, weights, restored, hout, hquantize, -⟩ := h.out_applies
  obtain ⟨s, t, o, hs, htype, ho, hproduct⟩ := ht.type?_matMul hout
  obtain ⟨s', hs', hleft⟩ := ht.type?_quantize hquantize
  obtain ⟨t', ht', hright⟩ := h.operands.2.2.exists_type ht
  obtain rfl : s' = s := Option.some.inj (hs'.symm.trans hs)
  obtain rfl : t' = t := Option.some.inj (ht'.symm.trans htype)
  rw [Inferred.productType_of_quantized hleft hright] at hproduct
  obtain rfl := Except.ok.inj hproduct
  exact ho

theorem Attends.not_quantized {scores' key' : Value} (h : Attends g out scores' key')
    (hq : AttendsQuantized g out scores query key value) (ht : g.Typed) : False := by
  obtain ⟨s, hs, hfloat, -⟩ := h.out_float
  have htype := hq.type?_out ht
  rw [Arena.type?, hs, Option.map_some, Option.some.injEq] at htype
  rw [htype] at hfloat
  cases hfloat

end Motif

theorem Variant.matchNode_eq_none (hg : g.Linked) (ht : g.Typed) {x : NodeId} {variant : Variant}
    (hq : (Variant.quantized.motif.matchNode g x).isSome = true) (hne : variant ≠ .quantized) :
    variant.motif.matchNode g x = none := by
  obtain ⟨scores, query, key, value, hq⟩ := (Motif.isSome_matchNode_quantized_iff hg x).mp hq
  have hfloating (preTransposed : Bool) :
      ¬ ((Motif.floating preTransposed).finish.matchNode g x).isSome = true := by
    intro h
    obtain ⟨scores', key', h, -⟩ := (Motif.isSome_matchNode_floating_iff hg preTransposed x).mp h
    exact h.not_quantized hq ht
  cases variant with
  | quantized => exact absurd rfl hne
  | preTransposed => exact Option.not_isSome_iff_eq_none.mp (hfloating true)
  | plain => exact Option.not_isSome_iff_eq_none.mp (hfloating false)

/-! ### Lists with an element in another place -/

section Lists

variable {α β : Type} [DecidableEq α] {f : α → Option β} {z : α} {l l' : List α}

theorem findSome?_filter_ne (hz : f z = none) : (l.filter (· ≠ z)).findSome? f = l.findSome? f := by
  induction l with
  | nil => rfl
  | cons x l ih =>
    by_cases hx : x = z
    · rw [List.filter_cons_of_neg (by simp [hx]), ih, List.findSome?_cons, hx, hz]
    · rw [List.filter_cons_of_pos (by simp [hx]), List.findSome?_cons, List.findSome?_cons, ih]

theorem findSome?_of_exclusive (hexclusive : (f z).isSome = true → ∀ x, x ≠ z → f x = none)
    (hrest : l.filter (· ≠ z) = l'.filter (· ≠ z)) (hmem : z ∈ l ↔ z ∈ l') :
    l.findSome? f = l'.findSome? f := by
  cases hz : f z with
  | none => rw [← findSome?_filter_ne hz, hrest, findSome?_filter_ne hz]
  | some y =>
    have hothers := hexclusive (by rw [hz]; rfl)
    have honly (l : List α) : l.findSome? f = if z ∈ l then some y else none := by
      induction l with
      | nil => rfl
      | cons x l ih =>
        by_cases hx : x = z
        · simp [hx, hz]
        · simp [hothers x hx, ih, Ne.symm hx]
    rw [honly, honly]
    simp [hmem]

end Lists

/-! ### Runs -/

/-- Two configurations that differ in where the quantized variant stands, and in nothing else. -/
structure Config.Rearranged (c c' : Config) : Prop where
  others : c' = { c with variants := c'.variants }
  rest : c.variants.filter (· ≠ .quantized) = c'.variants.filter (· ≠ .quantized)
  quantized : .quantized ∈ c.variants ↔ .quantized ∈ c'.variants

theorem Config.Rearranged.motifAt? (h : c.Rearranged c') (hg : g.Linked) (ht : g.Typed) :
    motifAt? c g = motifAt? c' g := by
  funext x
  unfold Attention.motifAt?
  split
  · refine findSome?_of_exclusive (fun hq variant hne => ?_) h.rest h.quantized
    rw [Option.isSome_map] at hq
    rw [Variant.matchNode_eq_none hg ht hq hne]
    rfl
  · rfl

theorem Config.Rearranged.discover (h : c.Rearranged c') (hg : g.Linked) (ht : g.Typed)
    (r : Ranking) : discover c r g = discover c' r g := by
  unfold Attention.discover
  rw [h.motifAt? hg ht, h.others]
  rfl

/-- Once islands are found, the variants of the configuration play no part. -/
theorem Config.Rearranged.fuseAll (h : c.Rearranged c') (is : List Island) (r : Ranking) (g : Graph)
    (o : Outcome) : fuseAll c is r g o = fuseAll c' is r g o := by
  have hfuse (g : Graph) (i : Island) : fusePermitted c g i = fusePermitted c' g i := by
    rw [h.others]
    rfl
  induction is generalizing r g o with
  | nil => rfl
  | cons i is ih =>
    unfold Attention.fuseAll
    simp only [hfuse, ih]

/-- Where the recorded specs are those that inference gives, it does not matter where the quantized
variant stands: a run ends in the same graph with the same outcome. For no other variant fits a
product that the quantized one fits. -/
theorem run_rearranged (hg : g.WellFormed) (ht : g.table = .standard) (hi : g.Inferred)
    (hc : c.Rearranged c') : run c g = run c' g ∧
      ∀ x (variant : Variant), variant ≠ .quantized →
        ¬ ((Variant.quantized.motif.matchNode g x).isSome = true ∧
          (variant.motif.matchNode g x).isSome = true) := by
  have htyped := Arena.typed_of_inferred ht hi
  constructor
  · unfold run
    simp only [hc.discover hg.linked htyped, hc.fuseAll]
  · rintro x variant hne ⟨hq, hother⟩
    rw [Variant.matchNode_eq_none hg.linked htyped hq hne] at hother
    cases hother

open Pipeline (slotOf first reader f32)

def matrix (t : ElementType) (rows columns : Nat) : Spec := ⟨t, .ofSizes [rows, columns]⟩

/-- Attention on quantized operands, with the scale one. -/
def quantizedAttention : Graph where
  slots := #[
    slotOf (Primitive.parameter (f32 [2, 4])) [] [⟨f32 [2, 4], [reader 3 0]⟩],
    slotOf (Primitive.parameter (f32 [3, 4])) [] [⟨f32 [3, 4], [reader 4 0]⟩],
    slotOf (Primitive.parameter (f32 [3, 4])) [] [⟨f32 [3, 4], [reader 5 0]⟩],
    slotOf (Primitive.quantize 1 0 .i8) [first 0] [⟨matrix .i8 2 4, [reader 6 0]⟩],
    slotOf (Primitive.quantize 1 0 .i8) [first 1] [⟨matrix .i8 3 4, [reader 6 1]⟩],
    slotOf (Primitive.quantize 1 0 .i8) [first 2] [⟨matrix .i8 3 4, [reader 10 1]⟩],
    slotOf (Primitive.matMul false true) [first 3, first 4] [⟨matrix .i32 2 3, [reader 7 0]⟩],
    slotOf (Primitive.dequantize 1 0) [first 6] [⟨f32 [2, 3], [reader 8 0]⟩],
    slotOf (Primitive.softmax (-1)) [first 7] [⟨f32 [2, 3], [reader 9 0]⟩],
    slotOf (Primitive.quantize 1 0 .u8) [first 8] [⟨matrix .u8 2 3, [reader 10 0]⟩],
    slotOf (Primitive.matMul false false) [first 9, first 5] [⟨matrix .i32 2 4, [reader 11 0]⟩],
    slotOf Primitive.result [first 10] []]
  free := []
  parameters := [⟨0, 0⟩, ⟨1, 0⟩, ⟨2, 0⟩]
  results := [⟨11, 0⟩]
  live := 12
  version := 0
  table := .standard

theorem wellFormed_quantizedAttention : quantizedAttention.WellFormed :=
  Arena.wellFormed_of_validate (by cbv) (by decide) (by decide) .nil
    (fun _ h => absurd h List.not_mem_nil) (by cbv)

theorem attends_quantizedAttention :
    Motif.AttendsQuantized quantizedAttention (first 10) (first 6) (first 3) (first 4)
      (first 5) where
  out_ranked := ⟨_, rfl, rfl⟩
  out_applies := ⟨first 9, first 8, first 7, ⟨_, rfl, by decide, by decide, rfl⟩,
    ⟨_, rfl, by decide, by decide, rfl⟩,
    ⟨first 7, first 8, .inl rfl, ⟨_, -1, _, 2, rfl, rfl, rfl, rfl, rfl, by decide, .inl rfl⟩,
      .inl rfl⟩,
    ⟨_, rfl, by decide, by decide, rfl⟩⟩
  scores_ranked := ⟨_, rfl, rfl⟩
  scores_applies := ⟨_, rfl, by decide, by decide, rfl⟩
  operands := ⟨.inl ⟨first 0, _, rfl, by decide, by decide, rfl⟩,
    .inl ⟨first 1, _, rfl, by decide, by decide, rfl⟩,
    .inl ⟨first 2, _, rfl, by decide, by decide, rfl⟩⟩

theorem inferred_quantizedAttention : quantizedAttention.Inferred := by
  apply Arena.inferred_of_nodeIds
  have hids : quantizedAttention.nodeIds =
      [⟨0, 0⟩, ⟨1, 0⟩, ⟨2, 0⟩, ⟨3, 0⟩, ⟨4, 0⟩, ⟨5, 0⟩, ⟨6, 0⟩, ⟨7, 0⟩, ⟨8, 0⟩, ⟨9, 0⟩, ⟨10, 0⟩,
        ⟨11, 0⟩] := by rfl
  rw [hids]
  simp only [List.forall_mem_cons, List.not_mem_nil, false_implies, implies_true, and_true]
  refine ⟨?_, ?_, ?_, ?_, ?_, ?_, ?_, ?_, ?_, ?_, ?_, ?_⟩ <;> rfl

/-- The quantized variant fits the second product, and it may as well be tried last. -/
theorem run_rearranged_quantizedAttention : quantizedAttention.WellFormed ∧
    quantizedAttention.table = .standard ∧ quantizedAttention.Inferred ∧
    (Variant.quantized.motif.matchNode quantizedAttention ⟨10, 0⟩).isSome = true ∧
    (Variant.plain.motif.matchNode quantizedAttention ⟨10, 0⟩).isSome = false ∧
    run .standard quantizedAttention =
      run ⟨[.preTransposed, .plain, .quantized], 4, true, true⟩ quantizedAttention := by
  have hg := wellFormed_quantizedAttention
  have hi := inferred_quantizedAttention
  have hc : Config.standard.Rearranged ⟨[.preTransposed, .plain, .quantized], 4, true, true⟩ :=
    ⟨rfl, by decide, by decide⟩
  have hmatch : (Variant.quantized.motif.matchNode quantizedAttention ⟨10, 0⟩).isSome = true :=
    (Motif.isSome_matchNode_quantized_iff hg.linked _).mpr ⟨_, _, _, _, attends_quantizedAttention⟩
  obtain ⟨hrun, hexclusive⟩ := run_rearranged hg rfl hi hc
  have hplain := hexclusive ⟨10, 0⟩ .plain (by decide)
  exact ⟨hg, rfl, hi, hmatch, Bool.eq_false_iff.mpr fun h => hplain ⟨hmatch, h⟩, hrun⟩

end Attention

end TensorGraph
