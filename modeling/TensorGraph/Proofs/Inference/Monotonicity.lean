import TensorGraph.Proofs.Inference.Indexing
import TensorGraph.Proofs.Inference.Layout
import TensorGraph.Proofs.Inference.Matrix
import TensorGraph.Proofs.Inference.Types

/-! # Monotonicity of the standard rules

On refined inputs inference fails wherever it fails on the inputs themselves, and otherwise its
outputs refine the former ones. The product with transposed weights is the exception.
-/

namespace TensorGraph

open Inferred

variable {given refined : List Spec}

theorem forall₂_pair {a b : Spec} (h : List.Forall₂ Spec.Refines refined [a, b]) :
    ∃ a' b', refined = [a', b'] ∧ a'.Refines a ∧ b'.Refines b := by
  obtain ⟨a', _, ha, hrest, rfl⟩ := List.forall₂_cons_right_iff.mp h
  obtain ⟨b', _, hb, hnil, rfl⟩ := List.forall₂_cons_right_iff.mp hrest
  obtain rfl := List.forall₂_nil_right_iff.mp hnil
  exact ⟨a', b', rfl, ha, hb⟩

theorem Primitive.covers_rule (p : Primitive) (hp : p ≠ .fullyConnected)
    (harity : (Capability.standard p.kind).arity.accepts given.length = true)
    (h : List.Forall₂ Spec.Refines refined given) : Covers (List.Forall₂ Spec.Refines)
      ((Capability.standard p.kind).rule (.primitive p) given)
      ((Capability.standard p.kind).rule (.primitive p) refined) := by
  have hfirst {rule : Primitive → Option (Spec → Inferred Spec)} {f : Spec → Inferred Spec}
      (hc : Capability.standard p.kind = ⟨.exactly 1, Rule.ofFirst rule⟩) (hrule : rule p = some f)
      (hf : ∀ s c : Spec, c.Refines s → Covers Spec.Refines (f s) (f c)) :
      Covers (List.Forall₂ Spec.Refines) ((Capability.standard p.kind).rule (.primitive p) given)
        ((Capability.standard p.kind).rule (.primitive p) refined) := by
    simp only [hc, Rule.ofFirst, hrule]
    cases h with
    | nil => exact .error
    | cons h _ => exact (hf _ _ h).bind fun h => .pure (.cons h .nil)
  have hpair {rule : Rule} {f : Spec → Spec → Inferred Spec}
      (hc : Capability.standard p.kind = ⟨.exactly 2, rule⟩)
      (hrule : ∀ a b, rule (.primitive p) [a, b] = (f a b >>= fun s => pure [s]))
      (hf : ∀ {a a' b b'}, a'.Refines a → b'.Refines b → Covers Spec.Refines (f a b) (f a' b')) :
      Covers (List.Forall₂ Spec.Refines) ((Capability.standard p.kind).rule (.primitive p) given)
        ((Capability.standard p.kind).rule (.primitive p) refined) := by
    simp only [hc] at harity ⊢
    obtain ⟨a, b, rfl⟩ := List.length_eq_two.mp (Operation.accepts_exactly harity)
    obtain ⟨a', b', rfl, ha, hb⟩ := forall₂_pair h
    rw [hrule, hrule]
    exact (hf ha hb).bind fun h => .pure (.cons h .nil)
  cases p with
  | parameter spec => exact .pure (.cons .rfl .nil)
  | constant value => exact .pure (.cons .rfl .nil)
  | result => exact .pure .nil
  | add | subtract | multiply => exact hpair rfl (fun _ _ => rfl) covers_arithmetic
  | equal | notEqual => exact hpair rfl (fun _ _ => rfl) covers_comparison
  | matMul left right => exact hpair rfl (fun _ _ => rfl) covers_matMul
  | fullyConnected => exact absurd rfl hp
  | transpose perm => exact hfirst rfl rfl fun _ _ => covers_transpose
  | reshape target specialZero => exact hfirst rfl rfl fun _ _ => covers_reshape
  | softmax axis => exact hfirst rfl rfl fun _ _ => covers_softmax
  | convert t => exact hfirst rfl rfl fun _ _ h => .pure ⟨rfl, h.shape⟩
  | quantize scale zeroPoint output => exact hfirst rfl rfl fun _ _ => covers_quantize
  | dequantize scale zeroPoint => exact hfirst rfl rfl fun _ _ => covers_dequantize
  | unique indexType axis =>
    cases h with
    | nil => exact .error
    | cons h _ => exact covers_unique h
  | shapeOf output => exact hfirst rfl rfl fun _ _ => covers_shapeOf
  | squeeze axes => exact hfirst rfl rfl fun _ _ => covers_squeeze
  | unsqueeze axes => exact hfirst rfl rfl fun _ _ => covers_unsqueeze
  | topK axis mode indexType =>
    obtain ⟨a, b, rfl⟩ := List.length_eq_two.mp (Operation.accepts_exactly harity)
    obtain ⟨a', b', rfl, ha, hb⟩ := forall₂_pair h
    exact (covers_require id).bind fun _ => covers_topK ha hb
  | concat axis =>
    cases h with
    | nil => exact .error
    | cons h hrest => exact (covers_concat h hrest).bind fun h => .pure (.cons h .nil)
  | select =>
    obtain ⟨s, a, b, rfl⟩ := List.length_eq_three.mp (Operation.accepts_exactly harity)
    obtain ⟨c, _, hc, hrest, rfl⟩ := List.forall₂_cons_right_iff.mp h
    obtain ⟨a', b', rfl, ha, hb⟩ := forall₂_pair hrest
    exact (covers_select hc ha hb).bind fun h => .pure (.cons h .nil)
  | slice start stop step axis => exact hfirst rfl rfl fun _ _ => covers_slice
  | nonZero output => exact hfirst rfl rfl fun _ _ => covers_nonZero
  | gather axis => exact hpair rfl (fun _ _ => rfl) covers_gather
  | range output => exact (covers_range h).bind fun h => .pure (.cons h .nil)
  | reduceMin axes keepAxes => exact hfirst rfl rfl fun _ _ => covers_reduce
  | reduceMax axes keepAxes => exact hfirst rfl rfl fun _ _ => covers_reduce

theorem refines_fullyConnected_rule {outputs outputs' : List Spec}
    (h : List.Forall₂ Spec.Refines refined given) {op op' : Operation Interface}
    (e : Rule.fullyConnected op given = .ok outputs)
    (e' : Rule.fullyConnected op' refined = .ok outputs') :
    List.Forall₂ Spec.Refines outputs' outputs := by
  obtain ⟨a, b, bias, s, rfl, hs, rfl⟩ := Rule.fullyConnected_eq_ok_iff.mp e
  obtain ⟨a', b', bias', s', rfl, hs', rfl⟩ := Rule.fullyConnected_eq_ok_iff.mp e'
  obtain ⟨ha, h⟩ := List.forall₂_cons.mp h
  obtain ⟨hb, -⟩ := List.forall₂_cons.mp h
  exact .cons (refines_fullyConnected ha hb hs hs') .nil

/-- Inference under the standard table on refined inputs. -/
theorem CapabilityTable.covers_infer (p : Primitive) (hp : p ≠ .fullyConnected)
    (h : List.Forall₂ Spec.Refines refined given) : Covers (List.Forall₂ Spec.Refines)
      (standard.infer (.primitive p) given) (standard.infer (.primitive p) refined) := by
  intro outputs' e'
  obtain ⟨harity, hrule'⟩ := Operation.infer_standard_eq_ok e'
  rw [h.length_eq] at harity
  obtain ⟨outputs, hrule, hrefine⟩ := p.covers_rule hp harity h outputs' hrule'
  refine ⟨outputs, ?_, hrefine⟩
  have harity : (Capability.standard p.kind).arity.accepts given.length = true := harity
  simp only [infer, standard, Operation.kind]
  rw [if_pos harity, hrule]

end TensorGraph
