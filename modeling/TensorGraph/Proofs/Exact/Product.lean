import Mathlib
import TensorGraph.Primitive
import TensorGraph.Proofs.Exact.Grid

/-! # Products over the rationals

Exact meanings of constants, sums, products entry by entry, and products with transposed weights.
Constants are read by any function from floats to rationals.
-/

namespace TensorGraph

namespace Grid

variable {x y u b t : Grid ℚ} {coords : List Nat} {q : ℚ} {n : Nat}

/-- The product with transposed weights: each row of data times each row of weights. -/
def product? (data weights : Grid ℚ) : Option (Grid ℚ) :=
  match weights.sizes with
  | [channels, inner] =>
    if data.sizes.getLast? = some inner then
      build? (data.sizes.dropLast ++ [channels]) fun coords => do
        let channel ← coords.getLast?
        let terms ← (List.range inner).mapM fun k => do
          return (← data.read? (coords.dropLast ++ [k])) * (← weights.read? [channel, k])
        return terms.sum
    else none
  | _ => none

/-- A bias over the last axis, with one value for each channel. -/
def addBias? (x bias : Grid ℚ) : Option (Grid ℚ) :=
  if x.sizes.getLast? = some bias.data.length then
    build? x.sizes fun coords => do
      return (← x.read? coords) + (← bias.data[← coords.getLast?]?)
  else none

theorem addBias?_eq_some_iff : addBias? x b = some t ↔
    x.sizes.getLast? = some b.data.length ∧ t.sizes = x.sizes ∧
      ∀ coords, Within x.sizes coords →
        (do return (← x.read? coords) + (← b.data[← coords.getLast?]?)) = t.read? coords := by
  unfold addBias?
  split
  · rename_i h
    rw [build?_eq_some_iff]
    exact (and_iff_right h).symm
  · rename_i h
    exact iff_of_false nofun fun h' => h h'.1

theorem exists_addBias? (h : x.sizes.getLast? = some b.data.length) :
    ∃ t, addBias? x b = some t := by
  unfold addBias?
  rw [if_pos h]
  refine exists_build? fun coords hc => ?_
  obtain ⟨q, hq⟩ := exists_read? hc
  obtain ⟨a, ha, hlt⟩ := hc.exists_getLast? h
  exact ⟨q + b.data[a], by simp [hq, ha, hlt]⟩

end Grid

/-- What operations make of exact values. -/
def exact (ρ : Float → ℚ) : Primitive → List (Grid ℚ) → Option (List (Grid ℚ))
  | .constant t, [] => some [.ofTensor ρ t]
  | .add, [x, y] => do return [← Grid.zipWith? (fun a b => some (a + b)) x y]
  | .multiply, [x, y] => do return [← Grid.zipWith? (fun a b => some (a * b)) x y]
  | .fullyConnected, [data, weights] => do return [← Grid.product? data weights]
  | .fullyConnected, [data, weights, bias] => do
    return [← Grid.addBias? (← Grid.product? data weights) bias]
  | _, _ => none

end TensorGraph
