import Mathlib.Data.List.Forall2
import TensorGraph.Proofs.Tensor.Layout

/-! # Counting entries

Products of sizes are taken factor by factor, and none of the partial products may leave the range
of counts. A product that is found is the exact one. It is found for sure if it is in range and not
zero: a factor of zero comes too late for what stands before it.
-/

namespace TensorGraph

variable {sizes sizes' positions : List Nat} {k count : Nat} {t u a b : Tensor}

theorem foldlM_bounded (h : sizes.foldlM boundedMul k = some count) :
    count = k * entryCount sizes := by
  induction sizes generalizing k with
  | nil => rw [entryCount, Nat.mul_one, Option.some.inj h]
  | cons n sizes ih =>
    rw [List.foldlM_cons] at h
    obtain ⟨c, hc, h⟩ := Option.bind_eq_some_iff.mp h
    obtain ⟨-, hc⟩ := Option.ite_none_right_eq_some.mp hc
    obtain rfl := Option.some.inj hc
    rw [ih h, entryCount, Nat.mul_assoc]

theorem boundedProduct_eq_some (h : boundedProduct sizes = some count) :
    count = entryCount sizes := (foldlM_bounded h).trans (Nat.one_mul _)

theorem foldlM_bounded_lt (hk : k < countLimit) (h : sizes.foldlM boundedMul k = some count) :
    count < countLimit := by
  induction sizes generalizing k with
  | nil => exact Option.some.inj h ▸ hk
  | cons n sizes ih =>
    rw [List.foldlM_cons] at h
    obtain ⟨c, hc, h⟩ := Option.bind_eq_some_iff.mp h
    obtain ⟨hlt, hc⟩ := Option.ite_none_right_eq_some.mp hc
    exact ih (Option.some.inj hc ▸ hlt) h

theorem boundedProduct_lt (h : boundedProduct sizes = some count) : count < countLimit :=
  foldlM_bounded_lt (by decide) h

theorem foldlM_bounded_eq_some (hpos : entryCount sizes ≠ 0)
    (hlt : k * entryCount sizes < countLimit) :
    sizes.foldlM boundedMul k = some (k * entryCount sizes) := by
  induction sizes generalizing k with
  | nil => exact congrArg some (Nat.mul_one k).symm
  | cons n sizes ih =>
    rw [entryCount, ← Nat.mul_assoc] at hlt ⊢
    have hrest : entryCount sizes ≠ 0 := (Nat.mul_ne_zero_iff.mp hpos).2
    have hle : k * n ≤ k * n * entryCount sizes :=
      Nat.le_mul_of_pos_right _ (Nat.pos_of_ne_zero hrest)
    rw [List.foldlM_cons, boundedMul, if_pos (hle.trans_lt hlt)]
    exact ih hrest hlt

theorem isCountable_of_pos (hpos : entryCount sizes ≠ 0) (hlt : entryCount sizes < countLimit) :
    IsCountable sizes :=
  Option.isSome_of_eq_some (foldlM_bounded_eq_some hpos (by rwa [Nat.one_mul]))

theorem foldlM_bounded_mono {k' : Nat} (h : List.Forall₂ (· ≤ ·) sizes sizes') (hk : k ≤ k')
    (hsome : (sizes'.foldlM boundedMul k').isSome) : (sizes.foldlM boundedMul k).isSome := by
  induction h generalizing k k' with
  | nil => rfl
  | @cons n n' sizes sizes' hn _ ih =>
    rw [List.foldlM_cons] at hsome ⊢
    have hle : k * n ≤ k' * n' := Nat.mul_le_mul hk hn
    by_cases hlt : k' * n' < countLimit
    · rw [boundedMul, if_pos hlt] at hsome
      rw [boundedMul, if_pos (hle.trans_lt hlt)]
      exact ih hle hsome
    · rw [boundedMul, if_neg hlt] at hsome
      cases hsome

theorem IsCountable.mono (h : IsCountable sizes') (hle : List.Forall₂ (· ≤ ·) sizes sizes') :
    IsCountable sizes := foldlM_bounded_mono hle le_rfl h

/-! ### Sizes of one -/

theorem foldlM_bounded_filter (hk : k < countLimit) :
    (sizes.filter (· ≠ 1)).foldlM boundedMul k = sizes.foldlM boundedMul k := by
  induction sizes generalizing k with
  | nil => rfl
  | cons n sizes ih =>
    rw [List.foldlM_cons]
    by_cases hn : n = 1
    · subst hn
      rw [List.filter_cons_of_neg (by simp), boundedMul, Nat.mul_one, if_pos hk]
      exact ih hk
    · rw [List.filter_cons_of_pos (by simpa using hn), List.foldlM_cons]
      cases hc : boundedMul k n with
      | none => rfl
      | some c =>
        obtain ⟨hlt, he⟩ := Option.ite_none_right_eq_some.mp hc
        obtain rfl := Option.some.inj he
        exact ih hlt

theorem entryCount_filter : ∀ sizes : List Nat, entryCount (sizes.filter (· ≠ 1)) = entryCount sizes
  | [] => rfl
  | n :: sizes => by
    by_cases hn : n = 1
    · rw [List.filter_cons_of_neg (by simpa using hn), entryCount_filter sizes, entryCount, hn,
        Nat.one_mul]
    · rw [List.filter_cons_of_pos (by simpa using hn), entryCount, entryCount_filter sizes,
        entryCount]

theorem entryCount_congr (h : sizes.filter (· ≠ 1) = sizes'.filter (· ≠ 1)) :
    entryCount sizes = entryCount sizes' := by
  rw [← entryCount_filter, h, entryCount_filter]

theorem IsCountable.congr (h : IsCountable sizes)
    (he : sizes'.filter (· ≠ 1) = sizes.filter (· ≠ 1)) : IsCountable sizes' := by
  have hone : 1 < countLimit := by decide
  rw [IsCountable, boundedProduct, ← foldlM_bounded_filter hone] at h ⊢
  rwa [he]

/-! ### Tensors -/

namespace Tensor

/-- The number of entries is found without leaving the range of counts. -/
def Counted (t : Tensor) : Prop := boundedProduct t.sizes = some t.data.size

theorem counted_iff : t.Counted ↔ IsCountable t.sizes := by
  refine ⟨Option.isSome_of_eq_some, fun h => ?_⟩
  obtain ⟨count, hcount⟩ := Option.isSome_iff_exists.mp h
  rw [Counted, hcount, boundedProduct_eq_some hcount, t.size_data]

theorem Counted.lt (h : t.Counted) : t.data.size < countLimit := boundedProduct_lt h

theorem Counted.of_size (h : t.Counted) (hpos : t.data.size ≠ 0) (hsize : u.data.size = t.data.size) :
    u.Counted := by
  have hcount : entryCount u.sizes = t.data.size := by rw [← u.size_data, hsize]
  exact counted_iff.mpr (isCountable_of_pos (hcount ▸ hpos) (hcount ▸ h.lt))

end Tensor

end TensorGraph
