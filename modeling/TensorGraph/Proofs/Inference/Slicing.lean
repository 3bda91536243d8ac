import Mathlib.Algebra.Order.Group.Unbundled.Int
import TensorGraph.Inference.Indexing

/-! # Positions of a slice

A slice steps from its first bound towards its last one. The length that inference gives it is the
number of positions on the way, and all of them lie on the axis. In signed words of 64 bits the same
length comes out, unless the way and one more step do not fit.
-/

namespace TensorGraph.Inferred

variable {size : Nat} {start stop step first last low high bound i j x : Int}

/-! ### Lengths in exact arithmetic -/

/-- A bound of a slice: negative ones count from the end, and all stay between two limits. -/
def sliceBound (size low high bound : Int) : Int :=
  max low (min high (if bound < 0 then bound + size else bound))

def sliceLength (size : Nat) (start stop step : Int) : Nat :=
  if 0 < step then
    let first := sliceBound size 0 size start
    let last := sliceBound size 0 size stop
    if first < last then ((last - first + step - 1) / step).toNat else 0
  else
    let first := sliceBound size (-1) (size - 1) start
    let last := sliceBound size (-1) (size - 1) stop
    if last < first then ((first - last - step - 1) / (-step)).toNat else 0

/-! ### Positions -/

/-- Where a bound lies: a negative one is counted from the end, and one off the axis lies at the
nearer end. The ends are just before the first position and at the last one if the step is
negative, and at the first position and just past the last one otherwise. -/
def boundPosition (size : Nat) (step bound : Int) : Int :=
  let low : Int := if 0 < step then 0 else -1
  let high : Int := if 0 < step then size else size - 1
  let counted := if bound < 0 then bound + size else bound
  if counted < low then low else if high < counted then high else counted

/-- The positions from `i` by `step` that lie strictly before `last`, in the direction of the
step. -/
def positionsFrom (step last i : Int) : List Int :=
  if 0 < step ∧ i < last ∨ step < 0 ∧ last < i then i :: positionsFrom step last (i + step)
  else []
termination_by (if 0 < step then last - i else i - last).toNat
decreasing_by split <;> omega

def slicePositions (size : Nat) (start stop step : Int) : List Int :=
  positionsFrom step (boundPosition size step stop) (boundPosition size step start)

/-- How far it is from a position to the last bound, in the direction of the step. -/
def way (step last i : Int) : Int := if 0 < step then last - i else i - last

theorem way_pos_iff (h : step ≠ 0) :
    0 < way step last i ↔ 0 < step ∧ i < last ∨ step < 0 ∧ last < i := by
  unfold way
  split <;> omega

theorem way_add (step last i : Int) : way step last (i + step) = way step last i - step.natAbs := by
  unfold way
  split <;> omega

theorem length_positionsFrom (h : step ≠ 0) (last i : Int) : (positionsFrom step last i).length =
    ((way step last i + step.natAbs - 1) / step.natAbs).toNat := by
  have hstep : 0 < (step.natAbs : Int) := by omega
  fun_induction positionsFrom step last i with
  | case1 i hi ih =>
    have hway := (way_pos_iff h).mpr hi
    have hquotient : (way step last i + step.natAbs - 1) / (step.natAbs : Int) =
        (way step last i - 1) / step.natAbs + 1 := by
      rw [← Int.add_mul_ediv_right _ 1 hstep.ne', one_mul, sub_add_eq_add_sub]
    have hnonneg : 0 ≤ (way step last i - 1) / (step.natAbs : Int) :=
      Int.ediv_nonneg (by omega) hstep.le
    rw [List.length_cons, ih, way_add, sub_add_cancel, hquotient]
    omega
  | case2 i hi =>
    have hway : ¬ 0 < way step last i := mt (way_pos_iff h).mp hi
    have hquotient : (way step last i + step.natAbs - 1) / (step.natAbs : Int) < 1 :=
      Int.ediv_lt_of_lt_mul hstep (by omega)
    rw [List.length_nil]
    omega

theorem length_positionsFrom_le (step last i : Int) :
    (positionsFrom step last i).length ≤ (way step last i).toNat := by
  fun_induction positionsFrom step last i with
  | case1 i hi ih =>
    have hway := (way_pos_iff (by omega)).mpr hi
    rw [way_add] at ih
    rw [List.length_cons]
    omega
  | case2 i hi => exact Nat.zero_le _

theorem between_of_mem_positionsFrom (h : j ∈ positionsFrom step last i) :
    0 < step ∧ i ≤ j ∧ j < last ∨ step < 0 ∧ last < j ∧ j ≤ i := by
  fun_induction positionsFrom step last i with
  | case1 i hi ih =>
    rcases List.mem_cons.mp h with rfl | h
    · omega
    · have hj := ih h
      omega
  | case2 i hi => exact absurd h List.not_mem_nil

/-! ### Lengths -/

theorem boundPosition_of_pos (h : 0 < step) (bound : Int) :
    boundPosition size step bound = sliceBound size 0 size bound := by
  simp only [boundPosition, sliceBound, if_pos h]
  omega

theorem boundPosition_of_neg (h : step < 0) (bound : Int) :
    boundPosition size step bound = sliceBound size (-1) (size - 1) bound := by
  simp only [boundPosition, sliceBound, if_neg h.not_gt]
  omega

theorem boundPosition_bounds (size : Nat) (step bound : Int) :
    (if 0 < step then 0 else -1) ≤ boundPosition size step bound ∧
      boundPosition size step bound ≤ if 0 < step then (size : Int) else size - 1 := by
  unfold boundPosition
  split <;> dsimp only <;> omega

theorem length_slicePositions (h : step ≠ 0) :
    (slicePositions size start stop step).length = sliceLength size start stop step := by
  rw [slicePositions, length_positionsFrom h, way, sliceLength]
  rcases h.lt_or_gt with hneg | hpos
  · have habs : (step.natAbs : Int) = -step := by omega
    rw [if_neg hneg.not_gt, if_neg hneg.not_gt, boundPosition_of_neg hneg,
      boundPosition_of_neg hneg, habs, ← sub_eq_add_neg]
    dsimp only
    split
    · rfl
    · have hquotient : (sliceBound size (-1) (size - 1) start -
          sliceBound size (-1) (size - 1) stop - step - 1) / (-step) < 1 :=
        Int.ediv_lt_of_lt_mul (by omega) (by omega)
      omega
  · have habs : (step.natAbs : Int) = step := by omega
    rw [if_pos hpos, if_pos hpos, boundPosition_of_pos hpos, boundPosition_of_pos hpos, habs]
    dsimp only
    split
    · rfl
    · have hquotient : (sliceBound size 0 size stop - sliceBound size 0 size start + step - 1) /
          step < 1 :=
        Int.ediv_lt_of_lt_mul hpos (by omega)
      omega

/-- The way of a slice is no longer than the axis. -/
theorem way_le_size (size : Nat) (start stop step : Int) :
    way step (boundPosition size step stop) (boundPosition size step start) ≤ size := by
  have hstart := boundPosition_bounds size step start
  have hstop := boundPosition_bounds size step stop
  unfold way
  split <;> simp_all <;> omega

theorem onAxis_of_mem_slicePositions (h : i ∈ slicePositions size start stop step) :
    0 ≤ i ∧ i < size := by
  have hstart := boundPosition_bounds size step start
  have hstop := boundPosition_bounds size step stop
  rcases between_of_mem_positionsFrom h with ⟨hstep, hi⟩ | ⟨hstep, hi⟩
  · rw [if_pos hstep, if_pos hstep] at hstart hstop
    omega
  · rw [if_neg hstep.not_gt, if_neg hstep.not_gt] at hstart hstop
    omega

/-! ### Words -/

theorem word?_of_isWord (h : IsWord x) : word? x = some x := if_pos h

theorem sliceBound?_eq (hsize : IsWord size) (hbound : IsWord bound) (low high : Int) :
    sliceBound? size low high bound = some (sliceBound size low high bound) := by
  unfold sliceBound? sliceBound
  split
  · rw [word?_of_isWord]
    · rfl
    · unfold IsWord at *
      omega
  · rfl

theorem strides?_eq {span stride : Int} (hspan : 0 < span) (hstride : 0 < stride) :
    strides? span stride =
      if 2 ^ 63 ≤ span + stride then none else some ((span + stride - 1) / stride).toNat := by
  unfold strides?
  split
  · have hsum : word? (span + stride) = none := if_neg (by unfold IsWord; omega)
    rw [hsum]
    rfl
  · have hsum : IsWord (span + stride) := by unfold IsWord; omega
    have hpred : IsWord (span + stride - 1) := by unfold IsWord; omega
    have hword : IsWord stride := by unfold IsWord; omega
    have hquotient : (span + stride - 1).tdiv stride = (span + stride - 1) / stride :=
      Int.tdiv_eq_ediv_of_nonneg (by omega)
    simp only [word?_of_isWord hsum, word?_of_isWord hpred, word?_of_isWord hword,
      Option.bind_eq_bind, Option.bind_some, hquotient]
    rfl

/-- In words there is the same length, unless the way and one more step do not fit together. -/
theorem sliceLength?_eq (hsize : IsWord size) (hstart : IsWord start) (hstop : IsWord stop)
    (hne : step ≠ 0) : sliceLength? size start stop step =
      if 0 < way step (boundPosition size step stop) (boundPosition size step start) ∧
        2 ^ 63 ≤ way step (boundPosition size step stop) (boundPosition size step start) +
          step.natAbs then none
      else some (sliceLength size start stop step) := by
  have hway := way_le_size size start stop step
  have hfits : (size : Int) < 2 ^ 63 := hsize.2.trans_eq (by decide)
  unfold sliceLength? sliceLength way at *
  rcases hne.lt_or_gt with hneg | hpos
  · have habs : (step.natAbs : Int) = -step := by omega
    have hhigh : IsWord (size - 1) := by unfold IsWord; omega
    simp only [if_neg hneg.not_gt, boundPosition_of_neg hneg, habs] at hway ⊢
    simp only [word?_of_isWord hsize, word?_of_isWord hhigh, sliceBound?_eq hsize hstart,
      sliceBound?_eq hsize hstop, Option.bind_eq_bind, Option.bind_some]
    generalize sliceBound size (-1) (size - 1) stop = last at *
    generalize sliceBound size (-1) (size - 1) start = first at *
    split
    · rename_i hlt
      have hword : IsWord (first - last) := by unfold IsWord; omega
      rw [word?_of_isWord hword, Option.bind_some,
        strides?_eq (sub_pos.mpr hlt) (neg_pos.mpr hneg), ← sub_eq_add_neg]
      simp only [sub_pos.mpr hlt, true_and]
    · rw [if_neg (by omega)]
      rfl
  · have habs : (step.natAbs : Int) = step := by omega
    simp only [if_pos hpos, boundPosition_of_pos hpos, habs] at hway ⊢
    simp only [word?_of_isWord hsize, sliceBound?_eq hsize hstart, sliceBound?_eq hsize hstop,
      Option.bind_eq_bind, Option.bind_some]
    generalize sliceBound size 0 size stop = last at *
    generalize sliceBound size 0 size start = first at *
    split
    · rename_i hlt
      have hword : IsWord (last - first) := by unfold IsWord; omega
      rw [word?_of_isWord hword, Option.bind_some, strides?_eq (sub_pos.mpr hlt) hpos]
      simp only [sub_pos.mpr hlt, true_and]
    · rw [if_neg (by omega)]
      rfl

/-! ### Slices -/

theorem ok_bind {ε α γ : Type} (a : α) (f : α → Except ε γ) :
    (Except.ok a : Except ε α) >>= f = f a := rfl

theorem slice_eq {t : ElementType} {extents : List Extent} {axis : Int} {k : Nat}
    (hne : step ≠ 0) (haxis : resolveAxis axis extents.length = some k)
    (hsize : extents[k]? = some (.known size)) :
    slice start stop step axis ⟨t, .ranked extents⟩ =
      (ofOption .overflow (sliceLength? size start stop step)).map fun n =>
        ⟨t, .ranked (extents.set k (.known n))⟩ := by
  have hextent : extents.getD k .unknown = .known size := by rw [List.getD, hsize, Option.getD_some]
  have hrequire : require (step ≠ 0) .sliceStep = .ok () := if_pos (decide_eq_true hne)
  have hposition : axisOf (.ranked extents) extents.length axis = .ok k := by rw [axisOf, haxis]; rfl
  unfold slice
  rw [hrequire, ok_bind]
  dsimp only
  rw [hposition, ok_bind, hextent, slicedExtent]
  cases sliceLength? size start stop step <;> rfl

/-- The length of a slice is the number of positions that it visits, all of them on the axis, and
no greater than the axis is long. On an axis whose length fits into a word, the same length comes
out in words, unless the way between the bounds and one more step do not fit together. That is the
length which inference records, and it overflows where there is none. -/
theorem sliceLength_counts (size : Nat) (start stop step : Int) (hne : step ≠ 0) :
    let visited := slicePositions size start stop step
    let way := way step (boundPosition size step stop) (boundPosition size step start)
    sliceLength size start stop step = visited.length ∧ (∀ i ∈ visited, 0 ≤ i ∧ i < size) ∧
    sliceLength size start stop step ≤ size ∧
    (IsWord size → IsWord start → IsWord stop → sliceLength? size start stop step =
      if 0 < way ∧ 2 ^ 63 ≤ way + step.natAbs then none else some visited.length) ∧
    ∀ t extents axis k, resolveAxis axis extents.length = some k →
      extents[k]? = some (.known size) → slice start stop step axis ⟨t, .ranked extents⟩ =
        (ofOption .overflow (sliceLength? size start stop step)).map fun n =>
          ⟨t, .ranked (extents.set k (.known n))⟩ := by
  intro visited _
  have hlength : visited.length = sliceLength size start stop step := length_slicePositions hne
  refine ⟨hlength.symm, fun i => onAxis_of_mem_slicePositions, ?_, fun hsize hstart hstop => ?_,
    fun t extents axis k => slice_eq hne⟩
  · have hle := length_positionsFrom_le step (boundPosition size step stop)
      (boundPosition size step start)
    have hway := way_le_size size start stop step
    rw [← hlength]
    exact hle.trans (Int.toNat_le.mpr hway)
  · rw [hlength]
    exact sliceLength?_eq hsize hstart hstop hne

/-- Backwards by two, from the last of five positions to past the first. -/
theorem sliceLength_reversed : (-2 : Int) ≠ 0 ∧ slicePositions 5 (-1) (-9) (-2) = [4, 2, 0] ∧
    sliceLength 5 (-1) (-9) (-2) = 3 ∧ sliceLength? 5 (-1) (-9) (-2) = some 3 := by
  have hne : (-2 : Int) ≠ 0 := by decide
  have hvisited : slicePositions 5 (-1) (-9) (-2) = [4, 2, 0] := by
    simp [slicePositions, boundPosition, positionsFrom]
  obtain ⟨hlength, -, -, hwords, -⟩ := sliceLength_counts 5 (-1) (-9) (-2) hne
  rw [hvisited] at hlength hwords
  refine ⟨hne, hvisited, hlength, (hwords (by decide) (by decide) (by decide)).trans ?_⟩
  exact if_neg (by decide)

end TensorGraph.Inferred
