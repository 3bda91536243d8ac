import TensorGraph.Attention.Motif
import TensorGraph.Proofs.Inference.Typing
import TensorGraph.Proofs.Pattern.Acceptance
import TensorGraph.Proofs.Rewrite.History

/-! # What the motifs recognize

A motif matches at a node exactly if the products, the softmax and the steps between them are there.
No choice among the steps loses a match, although every step has its alternatives tried in order
and all of them lead to the same term.
-/

namespace TensorGraph.Attention

variable {g : Graph}

namespace Motif

open Term

variable {u v : Value} {base inner scores : Term} {lo k l : Nat}

/-! ### Placeholders of a motif -/

theorem run_bind (b : Builder Term) (f : Term → Builder Term) (k : Nat) :
    (b >>= f).run k = (f (b.run k).1).run (b.run k).2 := rfl

theorem run_anyInput (k : Nat) : Builder.anyInput.run k = (.input k .always, k + 1) := rfl

theorem run_wrap (kinds : List Kind) (inputs : List Term) (guard : Guard) (k : Nat) :
    (Builder.wrap kinds inputs guard).run k = (.wrap k kinds inputs guard, k + 1) := rfl

theorem run_optional (kinds : List Kind) (inputs : List Term) (guard : Guard) (k : Nat) :
    (Builder.optional kinds inputs guard).run k = (.optional k kinds inputs guard, k + 1) := rfl

theorem run_step (base inner : Term) (k : Nat) : (step base inner).run k = (.oneOf (k + 11) [
    .wrap (k + 1) elementwise [inner, .input k .always] .always,
    .wrap (k + 3) elementwise [.input (k + 2) .always, inner] .always,
    .wrap (k + 6) [.select] [.input (k + 4) .always, inner, .input (k + 5) .always] .always,
    .wrap (k + 9) [.select] [.input (k + 7) .always, .input (k + 8) .always, inner] .always,
    .wrap (k + 10) [.reshape] [inner] .always, base], k + 12) := rfl

theorem ranges_step (hb : base.Ranges lo k) (hi : inner.Ranges lo k) (hlo : lo ≤ k) :
    ((step base inner).run k).1.Ranges lo ((step base inner).run k).2 := by
  have hinner {label : Nat} (h : k ≤ label) : inner.Ranges lo label := hi.mono le_rfl h
  have hside {l label : Nat} (hl : k ≤ l) (hlt : l < label) :
      (Term.input l .always).Ranges lo label := ranges_input.mono (hlo.trans hl) hlt
  have hfresh {l : Nat} (hl : k ≤ l) : l ∉ inner.labels := fun hmem =>
    absurd (hi.bounds l hmem).2 (by omega)
  have hcall {label : Nat} {kinds : List Kind} {inputs : List Term} (hl : k ≤ label)
      (hend : label < k + 12) (hall : ∀ t ∈ inputs, t.Ranges lo label)
      (apart : inputs.Pairwise fun s t => s.labels.Disjoint t.labels) :
      (Term.wrap label kinds inputs .always).Ranges lo (k + 12) :=
    (ranges_wrap hall (hlo.trans hl) apart).mono le_rfl hend
  rw [run_step]
  refine ranges_oneOf ?_
  simp only [List.forall_mem_cons, List.not_mem_nil, false_implies, implies_true, and_true]
  refine ⟨?_, ?_, ?_, ?_, ?_, hb.mono le_rfl (by omega)⟩
  · exact hcall (by omega) (by omega) (by simp [hinner, hside]) (by simp [labels, hfresh])
  · exact hcall (by omega) (by omega) (by simp [hinner, hside]) (by simp [labels, hfresh])
  · exact hcall (by omega) (by omega) (by simp [hinner, hside]) (by simp [labels, hfresh])
  · exact hcall (by omega) (by omega) (by simp [hinner, hside]) (by simp [labels, hfresh])
  · exact hcall (by omega) (by omega) (by simp [hinner]) (List.pairwise_singleton _ _)

theorem ranges_chain (hb : base.Ranges lo k) (hlo : lo ≤ k) (count : Nat) :
    k ≤ ((chain base count).run k).2 ∧
      ((chain base count).run k).1.Ranges lo ((chain base count).run k).2 := by
  induction count with
  | zero => exact ⟨le_rfl, hb⟩
  | succ count ih =>
    obtain ⟨hle, hi⟩ := ih
    refine ⟨hle.trans ?_, ranges_step (hb.mono le_rfl hle) hi (hlo.trans hle)⟩
    exact Nat.le_add_right _ 12

theorem run_probabilities (scores : Term) (k : Nat) : (probabilities scores).run k =
    (chain (.wrap ((chain scores 4).run k).2 [.softmax] [((chain scores 4).run k).1] lastAxis)
      2).run (((chain scores 4).run k).2 + 1) := rfl

theorem ranges_probabilities (hs : scores.Ranges lo k) (hlo : lo ≤ k) :
    k ≤ ((probabilities scores).run k).2 ∧
      ((probabilities scores).run k).1.Ranges lo ((probabilities scores).run k).2 := by
  obtain ⟨hle, hscaled⟩ := ranges_chain hs hlo 4
  obtain ⟨hle', hweights⟩ := ranges_chain (hscaled.unary (hlo.trans hle)) (by omega) 2
  rw [run_probabilities]
  exact ⟨by omega, hweights⟩

theorem run_keys (preTransposed : Bool) (k : Nat) : (keys preTransposed).run k =
    (.optional (k + 3) [.multiply] [
      if preTransposed then .wrap (k + 1) [.transpose] [.input k .always] .always
        else .optional (k + 1) [.transpose] [.input k .always] .always,
      .input (k + 2) .always] .always, k + 4) := by
  cases preTransposed <;> rfl

/-! ### Steps -/

/-- The value is an output of an elementwise operation, a selection or a reshape of the other. -/
inductive Step (g : Graph) (u v : Value) : Prop
  | left {w : Value} (applies : g.Applies elementwise [u, w] v)
  | right {w : Value} (applies : g.Applies elementwise [w, u] v)
  | whenTrue {condition w : Value} (applies : g.Applies [.select] [condition, u, w] v)
  | whenFalse {condition w : Value} (applies : g.Applies [.select] [condition, w, u] v)
  | reshaped (applies : g.Applies [.reshape] [u] v)

theorem step_iff_of_typed (ht : g.Typed) : Step g u v ↔ ∃ n, g.node? v.node = some n ∧
    v.port < n.outputs.length ∧
      (n.kind ∈ elementwise ∧ (n.inputs[0]? = some u ∨ n.inputs[1]? = some u) ∨
        n.kind = .select ∧ (n.inputs[1]? = some u ∨ n.inputs[2]? = some u) ∨
        n.kind = .reshape ∧ n.inputs[0]? = some u) := by
  constructor
  · rintro (⟨n, hn, hk, hport, hin⟩ | ⟨n, hn, hk, hport, hin⟩ | ⟨n, hn, hk, hport, hin⟩ |
      ⟨n, hn, hk, hport, hin⟩ | ⟨n, hn, hk, hport, hin⟩)
    · exact ⟨n, hn, hport, .inl ⟨hk, .inl (hin ▸ rfl)⟩⟩
    · exact ⟨n, hn, hport, .inl ⟨hk, .inr (hin ▸ rfl)⟩⟩
    · exact ⟨n, hn, hport, .inr (.inl ⟨List.mem_singleton.mp hk, .inl (hin ▸ rfl)⟩)⟩
    · exact ⟨n, hn, hport, .inr (.inl ⟨List.mem_singleton.mp hk, .inr (hin ▸ rfl)⟩)⟩
    · exact ⟨n, hn, hport, .inr (.inr ⟨List.mem_singleton.mp hk, hin ▸ rfl⟩)⟩
  · rintro ⟨n, hn, hport, ⟨hk, hin⟩ | ⟨hk, hin⟩ | ⟨hk, hin⟩⟩
    · have harity : (Capability.standard n.kind).arity = .exactly 2 := by
        simp only [elementwise, List.mem_cons, List.not_mem_nil, or_false] at hk
        rcases hk with hk | hk | hk <;> rw [hk] <;> rfl
      obtain ⟨w, x, hwx⟩ := List.length_eq_two.mp (ht.length_inputs hn harity)
      rw [hwx] at hin
      rcases hin with hin | hin
      · obtain rfl : w = u := Option.some.inj hin
        exact .left ⟨n, hn, hk, hport, hwx⟩
      · obtain rfl : x = u := Option.some.inj hin
        exact .right ⟨n, hn, hk, hport, hwx⟩
    · obtain ⟨c, w, x, hcwx⟩ := List.length_eq_three.mp (ht.length_inputs hn (hk ▸ rfl))
      rw [hcwx] at hin
      rcases hin with hin | hin
      · obtain rfl : w = u := Option.some.inj hin
        exact .whenTrue ⟨n, hn, List.mem_singleton.mpr hk, hport, hcwx⟩
      · obtain rfl : x = u := Option.some.inj hin
        exact .whenFalse ⟨n, hn, List.mem_singleton.mpr hk, hport, hcwx⟩
    · obtain ⟨w, hw⟩ := List.length_eq_one_iff.mp (ht.length_inputs hn (hk ▸ rfl))
      rw [hw] at hin
      obtain rfl : w = u := Option.some.inj hin
      exact .reshaped ⟨n, hn, List.mem_singleton.mpr hk, hport, hw⟩

def Near (g : Graph) : Nat → Value → Value → Prop
  | 0, u, v => v = u
  | count + 1, u, v => v = u ∨ ∃ w, Near g count u w ∧ Step g w v

theorem accepts_any : (Term.input l .always).Accepts g v ↔ g.hasOutput v = true := by
  simp [Term.Accepts, Guard.always]

theorem accepts_step_iff (hg : g.Linked) : ((step base inner).run k).1.Accepts g v ↔
    base.Accepts g v ∨ ∃ w, inner.Accepts g w ∧ Step g w v := by
  rw [run_step]
  change AcceptSome g _ v ↔ _
  simp only [AcceptSome, accepts_unary_iff, accepts_binary_iff, accepts_ternary_iff, accepts_any,
    or_false]
  constructor
  · rintro (⟨-, w, x, h, hw, -⟩ | ⟨-, x, w, h, -, hw⟩ | ⟨-, c, w, x, h, -, hw, -⟩ |
      ⟨-, c, x, w, h, -, -, hw⟩ | ⟨-, w, h, hw⟩ | h)
    · exact .inr ⟨w, hw, .left h⟩
    · exact .inr ⟨w, hw, .right h⟩
    · exact .inr ⟨w, hw, .whenTrue h⟩
    · exact .inr ⟨w, hw, .whenFalse h⟩
    · exact .inr ⟨w, hw, .reshaped h⟩
    · exact .inl h
  · rintro (h | ⟨w, hw, @⟨x, h⟩ | @⟨x, h⟩ | @⟨c, x, h⟩ | @⟨c, x, h⟩ | h⟩)
    · exact .inr (.inr (.inr (.inr (.inr h))))
    · exact .inl ⟨rfl, w, x, h, hw, h.hasOutput_of_mem hg (by simp)⟩
    · exact .inr (.inl ⟨rfl, x, w, h, h.hasOutput_of_mem hg (by simp), hw⟩)
    · exact .inr (.inr (.inl ⟨rfl, c, w, x, h, h.hasOutput_of_mem hg (by simp), hw,
        h.hasOutput_of_mem hg (by simp)⟩))
    · exact .inr (.inr (.inr (.inl ⟨rfl, c, x, w, h, h.hasOutput_of_mem hg (by simp),
        h.hasOutput_of_mem hg (by simp), hw⟩)))
    · exact .inr (.inr (.inr (.inr (.inl ⟨rfl, w, h, hw⟩))))

theorem accepts_chain_iff (hg : g.Linked) (count : Nat) :
    ((chain base count).run k).1.Accepts g v ↔ ∃ u, base.Accepts g u ∧ Near g count u v := by
  induction count generalizing v with
  | zero =>
    have hzero : (chain base 0).run k = (base, k) := rfl
    simp [hzero, Near]
  | succ count ih =>
    have hstep : ((chain base (count + 1)).run k).1.Accepts g v ↔ base.Accepts g v ∨
        ∃ w, ((chain base count).run k).1.Accepts g w ∧ Step g w v := accepts_step_iff hg
    simp only [hstep, ih, Near]
    constructor
    · rintro (h | ⟨w, ⟨u, hu, hw⟩, hstep⟩)
      · exact ⟨v, h, .inl rfl⟩
      · exact ⟨u, hu, .inr ⟨w, hw, hstep⟩⟩
    · rintro ⟨u, hu, rfl | ⟨w, hw, hstep⟩⟩
      · exact .inl hu
      · exact .inr ⟨w, ⟨u, hu, hw⟩, hstep⟩

/-! ### Softmax -/

theorem isLastAxis_iff {axis : Int} {shape : Shape} : isLastAxis axis shape = true ↔
    ∃ rank : Nat, shape.rank? = some rank ∧ 0 < rank ∧ (axis = -1 ∨ axis = rank - 1) := by
  unfold isLastAxis Shape.resolveAxis?
  cases shape.rank? with
  | none => simp
  | some rank =>
    simp only [Option.any_some, Option.bind_eq_bind, Option.bind_some, resolveAxis,
      Bool.and_eq_true, decide_eq_true_eq, beq_iff_eq, Option.some.injEq, exists_eq_left']
    refine and_congr_right fun hrank => ?_
    split <;> split <;> simp <;> omega

/-- The second value is a softmax of the first over the last axis of a known rank. -/
def Softmaxes (g : Graph) (u v : Value) : Prop :=
  ∃ n axis s, ∃ rank : Nat, g.node? v.node = some n ∧ n.op = .primitive (.softmax axis) ∧
    n.inputs = [u] ∧ g.spec? v = some s ∧ s.shape.rank? = some rank ∧ 0 < rank ∧
    (axis = -1 ∨ axis = rank - 1)

theorem softmaxes_iff : Softmaxes g u v ↔
    lastAxis.test g v = true ∧ g.Applies [.softmax] [u] v := by
  change _ ↔ softmaxesLastAxis g v = true ∧ _
  constructor
  · rintro ⟨n, axis, s, rank, hn, hop, hin, hs, hrank, hpos, haxis⟩
    obtain ⟨m, hm, hport⟩ := Arena.hasOutput_iff.mp (Arena.hasOutput_of_spec? hs)
    obtain rfl : n = m := Option.some.inj (hn.symm.trans hm)
    refine ⟨?_, n, hn, ?_, hport, hin⟩
    · have hlast := isLastAxis_iff.mpr ⟨rank, hrank, hpos, haxis⟩
      obtain ⟨op, inputs, outputs, name, annotations⟩ := n
      obtain rfl : op = .primitive (.softmax axis) := hop
      simpa [softmaxesLastAxis, hn, hs] using hlast
    · simp [Node.kind, hop, Operation.kind, Primitive.kind]
  · rintro ⟨htest, h⟩
    unfold softmaxesLastAxis at htest
    split at htest
    · rename_i axis inputs outputs name annotations s hn hs
      obtain ⟨rank, hrank, hpos, haxis⟩ := isLastAxis_iff.mp htest
      obtain ⟨m, hm, -, -, hin⟩ := h
      obtain rfl := Option.some.inj (hn.symm.trans hm)
      exact ⟨_, axis, s, rank, hn, rfl, hin, hs, hrank, hpos, haxis⟩
    · cases htest

/-- A few steps, a softmax and a few more steps lead from scores to weights. -/
def Normalizes (g : Graph) (scores weights : Value) : Prop :=
  ∃ s p, Near g 4 scores s ∧ Softmaxes g s p ∧ Near g 2 p weights

theorem accepts_probabilities_iff (hg : g.Linked) : ((probabilities scores).run k).1.Accepts g v ↔
    ∃ u, scores.Accepts g u ∧ Normalizes g u v := by
  rw [run_probabilities, accepts_chain_iff hg]
  simp only [accepts_unary_iff, accepts_chain_iff hg, Normalizes, softmaxes_iff]
  constructor
  · rintro ⟨p, ⟨htest, s, h, u, hu, hs⟩, hp⟩
    exact ⟨u, hu, s, p, hs, ⟨htest, h⟩, hp⟩
  · rintro ⟨u, hu, s, p, hs, ⟨htest, h⟩, hp⟩
    exact ⟨p, ⟨htest, s, h, u, hu, hs⟩, hp⟩

/-! ### Operands -/

/-- The value comes out of a transpose, or out of a product of such a value with another. -/
def TransposedKeys (g : Graph) (v : Value) : Prop :=
  (∃ w, g.Applies [.transpose] [w] v) ∨
    ∃ t c w, g.Applies [.multiply] [t, c] v ∧ g.Applies [.transpose] [w] t

/-- The value comes out of a quantization, perhaps through a transpose. -/
def QuantizedOperand (g : Graph) (v : Value) : Prop :=
  (∃ w, g.Applies [.quantize] [w] v) ∨
    ∃ t w, g.Applies [.transpose] [t] v ∧ g.Applies [.quantize] [w] t

theorem accepts_maybeTransposed (hv : g.hasOutput v = true) (k l : Nat) :
    (Term.optional k [.transpose] [.input l .always] .always).Accepts g v := by
  rw [accepts_optional_iff]
  exact .inr (accepts_any.mpr hv)

theorem accepts_keys_false (hv : g.hasOutput v = true) : ((keys false).run k).1.Accepts g v := by
  rw [run_keys, accepts_optional_iff]
  exact .inr (accepts_maybeTransposed hv _ _)

theorem accepts_keys_true_iff (hg : g.Linked) :
    ((keys true).run k).1.Accepts g v ↔ TransposedKeys g v := by
  rw [run_keys, accepts_optional_iff]
  simp only [if_true, accepts_unary_iff, accepts_binary_iff, accepts_any]
  constructor
  · rintro (⟨-, t, c, h, ⟨-, w, ht, -⟩, -⟩ | ⟨-, w, h, -⟩)
    · exact .inr ⟨t, c, w, h, ht⟩
    · exact .inl ⟨w, h⟩
  · rintro (⟨w, h⟩ | ⟨t, c, w, h, ht⟩)
    · exact .inr ⟨rfl, w, h, h.hasOutput_of_mem hg (by simp)⟩
    · exact .inl ⟨rfl, t, c, h, ⟨rfl, w, ht, ht.hasOutput_of_mem hg (by simp)⟩,
        h.hasOutput_of_mem hg (by simp)⟩

theorem run_quantizedOperand (k : Nat) : quantizedOperand.run k = (.optional (k + 2) [.transpose]
    [.wrap (k + 1) [.quantize] [.input k .always] .always] .always, k + 3) := rfl

theorem accepts_quantizedOperand_iff (hg : g.Linked) :
    (quantizedOperand.run k).1.Accepts g v ↔ QuantizedOperand g v := by
  rw [run_quantizedOperand, accepts_optional_iff]
  simp only [accepts_unary_iff, accepts_any]
  constructor
  · rintro (⟨-, t, h, -, w, ht, -⟩ | ⟨-, w, h, -⟩)
    · exact .inr ⟨t, w, h, ht⟩
    · exact .inl ⟨w, h⟩
  · rintro (⟨w, h⟩ | ⟨t, w, h, ht⟩)
    · exact .inr ⟨rfl, w, h, h.hasOutput_of_mem hg (by simp)⟩
    · exact .inl ⟨rfl, t, h, rfl, w, ht, ht.hasOutput_of_mem hg (by simp)⟩

/-! ### Motifs -/

def Ranked (g : Graph) (v : Value) : Prop := ∃ s, g.spec? v = some s ∧ s.shape.isRanked = true

def RankedFloat (g : Graph) (v : Value) : Prop :=
  ∃ s, g.spec? v = some s ∧ s.elementType.isFloat = true ∧ s.shape.isRanked = true

def TransposesRight (g : Graph) (v : Value) : Prop :=
  ∃ n left, g.node? v.node = some n ∧ n.op = .primitive (.matMul left true)

/-- A product of ranked floats has weights on its left that are made of such a product. -/
structure Attends (g : Graph) (out scores key : Value) : Prop where
  out_float : RankedFloat g out
  out_applies : ∃ weights value, g.Applies [.matMul] [weights, value] out ∧
    Normalizes g scores weights
  scores_float : RankedFloat g scores
  scores_applies : ∃ query, g.Applies [.matMul] [query, key] scores

/-- The same on quantized operands: the scores are dequantized, and the weights quantized again. -/
structure AttendsQuantized (g : Graph) (out scores query key value : Value) : Prop where
  out_ranked : Ranked g out
  out_applies : ∃ requantized weights restored, g.Applies [.matMul] [requantized, value] out ∧
    g.Applies [.quantize] [weights] requantized ∧ Normalizes g restored weights ∧
    g.Applies [.dequantize] [scores] restored
  scores_ranked : Ranked g scores
  scores_applies : g.Applies [.matMul] [query, key] scores
  operands : QuantizedOperand g query ∧ QuantizedOperand g key ∧ QuantizedOperand g value

def scoresGuard (preTransposed : Bool) : Guard :=
  if preTransposed then .and isRankedFloat (.onOperation "transpose_b" transposesRight)
  else isRankedFloat

/-- The first product, as the placeholders of a motif of floats are numbered. -/
def floatScores (preTransposed : Bool) : Term :=
  .wrap 6 [.matMul] [.optional 1 [.transpose] [.input 0 .always] .always,
    ((keys preTransposed).run 2).1] (scoresGuard preTransposed)

theorem root_floating (preTransposed : Bool) : (floating preTransposed).finish.root =
    .wrap (((probabilities (floatScores preTransposed)).run 7).2 + 2) [.matMul]
      [((probabilities (floatScores preTransposed)).run 7).1,
        .optional (((probabilities (floatScores preTransposed)).run 7).2 + 1) [.transpose]
          [.input ((probabilities (floatScores preTransposed)).run 7).2 .always] .always]
      isRankedFloat := by
  change ((floating preTransposed).run 0).1 = _
  simp only [floating, maybeTransposed, run_bind, run_anyInput, run_wrap, run_optional]
  simp only [run_keys, floatScores, scoresGuard]

def quantizedScores : Term :=
  .wrap 7 [.dequantize] [.wrap 6 [.matMul] [(quantizedOperand.run 0).1, (quantizedOperand.run 3).1]
    .hasRank] .always

theorem root_quantized : quantized.finish.root =
    .wrap (((probabilities quantizedScores).run 8).2 + 4) [.matMul]
      [.wrap ((probabilities quantizedScores).run 8).2 [.quantize]
          [((probabilities quantizedScores).run 8).1] .always,
        (quantizedOperand.run (((probabilities quantizedScores).run 8).2 + 1)).1] .hasRank := by
  change (quantized.run 0).1 = _
  simp only [quantized, run_bind, run_wrap, run_quantizedOperand, quantizedScores]

theorem ranges_maybeTransposed (k : Nat) :
    (Term.optional (k + 1) [.transpose] [.input k .always] .always).Ranges k (k + 2) :=
  ranges_input.orSkip k.le_succ

theorem ranges_keys (preTransposed : Bool) (k : Nat) :
    ((keys preTransposed).run k).1.Ranges k (k + 4) := by
  have htransposed : (if preTransposed then
      Term.wrap (k + 1) [.transpose] [.input k .always] .always
        else .optional (k + 1) [.transpose] [.input k .always] .always).Ranges k (k + 2) := by
    cases preTransposed with
    | false => exact ranges_maybeTransposed k
    | true => exact ranges_input.unary k.le_succ
  have hscale : (Term.input (k + 2) .always).Ranges (k + 2) (k + 3) := ranges_input
  obtain ⟨hall, apart⟩ := htransposed.pair hscale (by omega) (by omega)
  rw [run_keys]
  exact ranges_optional hall (by omega) apart

theorem ranges_quantizedOperand (k : Nat) : (quantizedOperand.run k).1.Ranges k (k + 3) :=
  (ranges_input.unary k.le_succ).orSkip (by omega)

theorem separate_floating (preTransposed : Bool) :
    (floating preTransposed).finish.root.Separate := by
  have hscores : (floatScores preTransposed).Ranges 0 7 := by
    obtain ⟨hall, apart⟩ := (ranges_maybeTransposed 0).pair (ranges_keys preTransposed 2)
      (by omega) (by omega)
    exact ranges_wrap hall (by omega) apart
  obtain ⟨hle, hweights⟩ := ranges_probabilities hscores (by omega)
  obtain ⟨hall, apart⟩ := hweights.pair (ranges_maybeTransposed _) (by omega) (by omega)
  rw [root_floating]
  exact (ranges_wrap hall (by omega) apart).separate

theorem separate_quantized : quantized.finish.root.Separate := by
  have hscores : quantizedScores.Ranges 0 8 := by
    obtain ⟨hall, apart⟩ := (ranges_quantizedOperand 0).pair (ranges_quantizedOperand 3)
      (by omega) (by omega)
    exact (ranges_wrap hall (by omega) apart).unary (by omega)
  obtain ⟨hle, hweights⟩ := ranges_probabilities hscores (by omega)
  obtain ⟨hall, apart⟩ := (hweights.unary (by omega)).pair (ranges_quantizedOperand _)
    (by omega) (by omega)
  rw [root_quantized]
  exact (ranges_wrap hall (by omega) apart).separate

/-! ### What a motif accepts -/

theorem test_hasRank_iff : Guard.hasRank.test g v = true ↔ Ranked g v := by
  simp [Guard.hasRank, Guard.onSpec, Ranked, Option.any_eq_true]

theorem test_isRankedFloat_iff : isRankedFloat.test g v = true ↔ RankedFloat g v := by
  simp only [isRankedFloat, Guard.and, Guard.isFloat, Guard.hasRank, Guard.onSpec, RankedFloat,
    Bool.and_eq_true]
  cases g.spec? v <;> simp

theorem test_transposesRight_iff :
    (Guard.onOperation "transpose_b" transposesRight).test g v = true ↔ TransposesRight g v := by
  have hop (op : Operation Body) :
      transposesRight op = true ↔ ∃ left, op = .primitive (.matMul left true) := by
    unfold transposesRight
    split
    · simp
    · rename_i hne
      simp only [Bool.false_eq_true, false_iff, not_exists]
      exact fun left he => hne left true he
  simp only [Guard.onOperation, TransposesRight, Option.any_eq_true, hop]
  constructor
  · rintro ⟨n, hn, left, he⟩
    exact ⟨n, left, hn, he⟩
  · rintro ⟨n, left, hn, he⟩
    exact ⟨n, hn, left, he⟩

theorem accepts_floatScores_iff (hg : g.Linked) (preTransposed : Bool) :
    (floatScores preTransposed).Accepts g v ↔ RankedFloat g v ∧ ∃ query key,
      g.Applies [.matMul] [query, key] v ∧
        (preTransposed = true → TransposesRight g v ∧ TransposedKeys g key) := by
  rw [floatScores, accepts_binary_iff, scoresGuard]
  cases preTransposed with
  | false =>
    simp only [Bool.false_eq_true, if_false, false_implies, and_true, test_isRankedFloat_iff]
    refine and_congr_right fun _ => ⟨?_, ?_⟩
    · rintro ⟨query, key, h, -⟩
      exact ⟨query, key, h⟩
    · rintro ⟨query, key, h⟩
      exact ⟨query, key, h, accepts_maybeTransposed (h.hasOutput_of_mem hg (by simp)) _ _,
        accepts_keys_false (h.hasOutput_of_mem hg (by simp))⟩
  | true =>
    have hguard : (isRankedFloat.and (.onOperation "transpose_b" transposesRight)).test g v = true ↔
        RankedFloat g v ∧ TransposesRight g v := by
      rw [← test_isRankedFloat_iff, ← test_transposesRight_iff]
      exact Bool.and_eq_true_iff
    simp only [if_true, true_implies, hguard, accepts_keys_true_iff hg]
    constructor
    · rintro ⟨⟨hfloat, hright⟩, query, key, h, -, hkey⟩
      exact ⟨hfloat, query, key, h, hright, hkey⟩
    · rintro ⟨hfloat, query, key, h, hright, hkey⟩
      exact ⟨⟨hfloat, hright⟩, query, key, h,
        accepts_maybeTransposed (h.hasOutput_of_mem hg (by simp)) _ _, hkey⟩

theorem accepts_floating_iff (hg : g.Linked) (preTransposed : Bool) :
    (floating preTransposed).finish.root.Accepts g v ↔ ∃ scores key, Attends g v scores key ∧
      (preTransposed = true → TransposesRight g scores ∧ TransposedKeys g key) := by
  rw [root_floating, accepts_binary_iff, test_isRankedFloat_iff]
  simp only [accepts_probabilities_iff hg, accepts_floatScores_iff hg]
  constructor
  · rintro ⟨hout, weights, value, h, ⟨scores, ⟨hfloat, query, key, hs, hpre⟩, hweights⟩, -⟩
    exact ⟨scores, key, ⟨hout, ⟨weights, value, h, hweights⟩, hfloat, query, hs⟩, hpre⟩
  · rintro ⟨scores, key, ⟨hout, ⟨weights, value, h, hweights⟩, hfloat, query, hs⟩, hpre⟩
    exact ⟨hout, weights, value, h, ⟨scores, ⟨hfloat, query, key, hs, hpre⟩, hweights⟩,
      accepts_maybeTransposed (h.hasOutput_of_mem hg (by simp)) _ _⟩

theorem accepts_quantized_iff (hg : g.Linked) : quantized.finish.root.Accepts g v ↔
    ∃ scores query key value, AttendsQuantized g v scores query key value := by
  rw [root_quantized, accepts_binary_iff, test_hasRank_iff]
  simp only [accepts_unary_iff, accepts_probabilities_iff hg, quantizedScores, accepts_binary_iff,
    accepts_quantizedOperand_iff hg, test_hasRank_iff]
  constructor
  · rintro ⟨hout, requantized, value, h, ⟨-, weights, hq, restored, ⟨-, scores, hd, hranked, query,
      key, hs, hquery, hkey⟩, hweights⟩, hvalue⟩
    exact ⟨scores, query, key, value, hout, ⟨requantized, weights, restored, h, hq, hweights, hd⟩,
      hranked, hs, hquery, hkey, hvalue⟩
  · rintro ⟨scores, query, key, value, hout, ⟨requantized, weights, restored, h, hq, hweights, hd⟩,
      hranked, hs, hquery, hkey, hvalue⟩
    exact ⟨hout, requantized, value, h, ⟨rfl, weights, hq, restored, ⟨rfl, scores, hd, hranked,
      query, key, hs, hquery, hkey⟩, hweights⟩, hvalue⟩

/-! ### Matches -/

theorem isSome_matchNode_floating_iff (hg : g.Linked) (preTransposed : Bool) (x : NodeId) :
    ((floating preTransposed).finish.matchNode g x).isSome = true ↔
      ∃ scores key, Attends g (x.output 0) scores key ∧
        (preTransposed = true → TransposesRight g scores ∧ TransposedKeys g key) := by
  rw [Pattern.isSome_matchNode_iff (separate_floating preTransposed), accepts_floating_iff hg]
  intro h
  obtain ⟨-, -, ⟨-, ⟨_, _, hout, -⟩, -⟩, -⟩ := (accepts_floating_iff hg _).mp h
  exact hout.hasOutput

theorem isSome_matchNode_quantized_iff (hg : g.Linked) (x : NodeId) :
    (quantized.finish.matchNode g x).isSome = true ↔
      ∃ scores query key value, AttendsQuantized g (x.output 0) scores query key value := by
  rw [Pattern.isSome_matchNode_iff separate_quantized, accepts_quantized_iff hg]
  intro h
  obtain ⟨_, _, _, _, -, ⟨_, _, _, hout, -⟩, -⟩ := (accepts_quantized_iff hg).mp h
  exact hout.hasOutput

end Motif

/-- The motifs match exactly where there is what they describe. In a typed graph the steps of their
chains are told by the kind of a node and by the input through which it reads. -/
theorem Variant.isSome_matchNode_motif_iff (hg : g.WellFormed) (x : NodeId) :
    ((Variant.plain.motif.matchNode g x).isSome = true ↔
      ∃ scores key, Motif.Attends g (x.output 0) scores key) ∧
    ((Variant.preTransposed.motif.matchNode g x).isSome = true ↔
      ∃ scores key, Motif.Attends g (x.output 0) scores key ∧
        Motif.TransposesRight g scores ∧ Motif.TransposedKeys g key) ∧
    ((Variant.quantized.motif.matchNode g x).isSome = true ↔
      ∃ scores query key value,
        Motif.AttendsQuantized g (x.output 0) scores query key value) ∧
    (g.Typed → ∀ u v, Motif.Step g u v ↔ ∃ n, g.node? v.node = some n ∧
      v.port < n.outputs.length ∧
        (n.kind ∈ Motif.elementwise ∧ (n.inputs[0]? = some u ∨ n.inputs[1]? = some u) ∨
          n.kind = .select ∧ (n.inputs[1]? = some u ∨ n.inputs[2]? = some u) ∨
          n.kind = .reshape ∧ n.inputs[0]? = some u)) := by
  refine ⟨?_, ?_, Motif.isSome_matchNode_quantized_iff hg.linked x,
    fun ht u v => Motif.step_iff_of_typed ht⟩
  · refine (Motif.isSome_matchNode_floating_iff hg.linked false x).trans ?_
    simp
  · refine (Motif.isSome_matchNode_floating_iff hg.linked true x).trans ?_
    simp

/-- Attention with scores that are masked by a selection. -/
def maskedAttention : Graph := Arena.reached .standard [
  .addParameter "query" ⟨.f32, .ofSizes [2, 4]⟩,
  .addParameter "keys" ⟨.f32, .ofSizes [3, 4]⟩,
  .addParameter "values" ⟨.f32, .ofSizes [3, 4]⟩,
  .addParameter "mask" ⟨.boolean, .ofSizes [2, 3]⟩,
  .addParameter "masked" ⟨.f32, .ofSizes [2, 3]⟩,
  .addNode (Primitive.matMul false true) [⟨⟨0, 0⟩, 0⟩, ⟨⟨1, 0⟩, 0⟩],
  .addNode Primitive.select [⟨⟨3, 0⟩, 0⟩, ⟨⟨5, 0⟩, 0⟩, ⟨⟨4, 0⟩, 0⟩],
  .addNode (Primitive.softmax (-1)) [⟨⟨6, 0⟩, 0⟩],
  .addNode (Primitive.matMul false false) [⟨⟨7, 0⟩, 0⟩, ⟨⟨2, 0⟩, 0⟩],
  .addResult ⟨⟨8, 0⟩, 0⟩]

theorem attends_maskedAttention :
    Motif.Attends maskedAttention ⟨⟨8, 0⟩, 0⟩ ⟨⟨5, 0⟩, 0⟩ ⟨⟨1, 0⟩, 0⟩ where
  out_float := ⟨⟨.f32, .ofSizes [2, 4]⟩, rfl, rfl, rfl⟩
  out_applies := ⟨⟨⟨7, 0⟩, 0⟩, ⟨⟨2, 0⟩, 0⟩, ⟨_, rfl, by decide, by decide, rfl⟩,
    ⟨⟨6, 0⟩, 0⟩, ⟨⟨7, 0⟩, 0⟩,
    .inr ⟨⟨⟨5, 0⟩, 0⟩, .inl rfl, .whenTrue ⟨_, rfl, by decide, by decide, rfl⟩⟩,
    ⟨_, -1, _, 2, rfl, rfl, rfl, rfl, rfl, by decide, .inl rfl⟩, .inl rfl⟩
  scores_float := ⟨⟨.f32, .ofSizes [2, 3]⟩, rfl, rfl, rfl⟩
  scores_applies := ⟨⟨⟨0, 0⟩, 0⟩, ⟨_, rfl, by decide, by decide, rfl⟩⟩

theorem isSome_matchNode_maskedAttention : maskedAttention.WellFormed ∧
    (Variant.plain.motif.matchNode maskedAttention ⟨8, 0⟩).isSome = true := by
  have hg : maskedAttention.WellFormed := Arena.wellFormed_reached _ _
  exact ⟨hg, (Variant.isSome_matchNode_motif_iff hg ⟨8, 0⟩).1.mpr ⟨_, _, attends_maskedAttention⟩⟩

end TensorGraph.Attention
