import TensorGraph.Attention.Motif
import TensorGraph.Proofs.Pattern.Operations

/-! # Terms of the motifs

The operations in a motif are of few kinds, neither anchors nor constants among them. Every motif
has its root at a product and leads from there to another one.
-/

namespace TensorGraph.Attention

def Movable (k : Kind) : Prop := k.isAnchor = false

instance : DecidablePred Movable := fun k => inferInstanceAs (Decidable (k.isAnchor = false))

/-- The kinds of nodes that motifs and the steps after them take along. -/
def memberKinds : List Kind :=
  [.add, .subtract, .multiply, .select, .reshape, .softmax, .transpose, .matMul, .quantize,
    .dequantize, .convert]

def Member (k : Kind) : Prop := k ∈ memberKinds

instance : DecidablePred Member := fun k => inferInstanceAs (Decidable (k ∈ memberKinds))

theorem Member.movable {k : Kind} (h : Member k) : Movable k := by
  have hall : ∀ k ∈ memberKinds, Movable k := by decide
  exact hall k h

theorem Member.ne_constant {k : Kind} (h : Member k) : k ≠ .constant := by
  rintro rfl
  revert h
  decide

namespace Motif

open Builder

variable {known : List Term} {base inner source scores : Term} {k : Kind}

theorem ensures_step (hb : base ∈ known) (hi : inner ∈ known) (hbase : base.Leads k)
    (hinner : inner.Leads k) : Ensures Member known (step base inner) (Term.Leads k) := by
  apply Ensures.bind ensures_anyInput
  intro right _
  apply Ensures.bind (ensures_operand (by decide) (by simp [hi]) (by simp) hinner)
  intro onLeft honLeft
  apply Ensures.bind ensures_anyInput
  intro left _
  apply Ensures.bind (ensures_operand (by decide) (by simp [hi]) (by simp) hinner)
  intro onRight honRight
  apply Ensures.bind ensures_anyInput
  intro condition _
  apply Ensures.bind ensures_anyInput
  intro other _
  apply Ensures.bind (ensures_operand (by decide) (by simp [hi]) (by simp) hinner)
  intro whenTrue hwhenTrue
  apply Ensures.bind ensures_anyInput
  intro condition' _
  apply Ensures.bind ensures_anyInput
  intro other' _
  apply Ensures.bind (ensures_operand (by decide) (by simp [hi]) (by simp) hinner)
  intro whenFalse hwhenFalse
  apply Ensures.bind (ensures_operand (by decide) (by simp [hi]) (by simp) hinner)
  intro reshaped hreshaped
  apply ensures_oneOf (by simp [hb])
  intro label
  apply Term.Leads.oneOf
  simp [honLeft, honRight, hwhenTrue, hwhenFalse, hreshaped, hbase]

theorem ensures_chain (hb : base ∈ known) (hbase : base.Leads k) (count : Nat) :
    Ensures Member known (chain base count) (Term.Leads k) := by
  induction count with
  | zero => exact ensures_pure hb hbase
  | succ count ih =>
    apply Ensures.bind ih
    intro inner hinner
    exact ensures_step (List.mem_cons_of_mem _ hb) List.mem_cons_self hbase hinner

theorem ensures_probabilities (hs : scores ∈ known) (hscores : scores.Leads k) :
    Ensures Member known (probabilities scores) (Term.Leads k) := by
  apply Ensures.bind (ensures_chain hs hscores 4)
  intro scaled hscaled
  apply Ensures.bind (ensures_operand (by decide) (by simp) (by simp) hscaled)
  intro softmax hsoftmax
  exact ensures_chain List.mem_cons_self hsoftmax 2

theorem ensures_maybeTransposed (hs : source ∈ known) :
    Ensures Member known (maybeTransposed source) fun _ => True :=
  ensures_optional (by decide) (by simp [hs])

theorem ensures_keys (preTransposed : Bool) :
    Ensures Member known (keys preTransposed) fun _ => True := by
  have hscaled {known : List Term} {t : Term} (ht : t ∈ known) : Ensures Member known
      (anyInput >>= fun scale => Builder.optional [.multiply] [t, scale] .always)
      fun _ => True := by
    apply Ensures.bind ensures_anyInput
    intro scale _
    exact ensures_optional (by decide) (by simp [ht])
  apply Ensures.bind ensures_anyInput
  intro source _
  cases preTransposed with
  | true =>
    apply Ensures.bind (ensures_wrap (Q := fun _ => True) (by decide) (by simp) fun _ => trivial)
    intro transposed _
    exact hscaled List.mem_cons_self
  | false =>
    apply Ensures.bind (ensures_maybeTransposed List.mem_cons_self)
    intro transposed _
    exact hscaled List.mem_cons_self

theorem ensures_floating (preTransposed : Bool) :
    Ensures Member known (floating preTransposed) (Term.Stacks .matMul) := by
  apply Ensures.bind ensures_anyInput
  intro source _
  apply Ensures.bind (ensures_maybeTransposed List.mem_cons_self)
  intro query _
  apply Ensures.bind (ensures_keys preTransposed)
  intro key _
  apply Ensures.bind (ensures_wrap (by decide) (by simp) fun _ => Term.Leads.here)
  intro scores hscores
  apply Ensures.bind (ensures_probabilities List.mem_cons_self hscores)
  intro weights hweights
  apply Ensures.bind ensures_anyInput
  intro source' _
  apply Ensures.bind (ensures_maybeTransposed List.mem_cons_self)
  intro value _
  apply ensures_wrap (by decide) (by simp)
  intro label
  exact .intro List.mem_cons_self hweights

theorem ensures_quantizedOperand : Ensures Member known quantizedOperand fun _ => True := by
  apply Ensures.bind ensures_anyInput
  intro source _
  apply Ensures.bind (ensures_wrap (Q := fun _ => True) (by decide) (by simp) fun _ => trivial)
  intro quantized _
  exact ensures_maybeTransposed List.mem_cons_self

theorem ensures_quantized : Ensures Member known quantized (Term.Stacks .matMul) := by
  apply Ensures.bind ensures_quantizedOperand
  intro query _
  apply Ensures.bind ensures_quantizedOperand
  intro key _
  apply Ensures.bind (ensures_wrap (by decide) (by simp) fun _ => Term.Leads.here)
  intro scores hscores
  apply Ensures.bind (ensures_operand (by decide) (by simp) (by simp) hscores)
  intro restored hrestored
  apply Ensures.bind (ensures_probabilities List.mem_cons_self hrestored)
  intro weights hweights
  apply Ensures.bind (ensures_operand (by decide) (by simp) (by simp) hweights)
  intro requantized hrequantized
  apply Ensures.bind ensures_quantizedOperand
  intro value _
  apply ensures_wrap (by decide) (by simp)
  intro label
  exact .intro List.mem_cons_self hrequantized

end Motif

/-- The motifs are built from such operations, and have two products one above the other. -/
theorem Variant.ensures_motif (variant : Variant) : variant.motif.Built ∧
    variant.motif.root.Wraps Member ∧ variant.motif.root.Stacks .matMul := by
  cases variant with
  | quantized => exact Motif.ensures_quantized.finish
  | preTransposed => exact (Motif.ensures_floating true).finish
  | plain => exact (Motif.ensures_floating false).finish

end TensorGraph.Attention
