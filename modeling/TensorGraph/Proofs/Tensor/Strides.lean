import Mathlib.Algebra.GroupWithZero.Nat
import TensorGraph.Proofs.Tensor.Layout

/-! # Strides

Folding may also be carried out position by position: a position of the result is taken apart into
coordinates, and the positions of the entries it depends on are sums of coordinates times strides.
These loops, in which every read may fail, stay within the payloads and give the same tensors.
-/

namespace TensorGraph

variable {sizes joined coords perm : List Nat} {i n : Nat}

/-! ### Positions from strides -/

/-- One axis of a position that is taken apart: the coordinate, and what is left for the axes
before it. -/
def unravelAxis (n : Nat) (rest : List Nat × Nat) : List Nat × Nat :=
  (rest.2 % max n 1 :: rest.1, rest.2 / max n 1)

/-- The coordinates of a position, from the last axis to the first. -/
def unravel (sizes : List Nat) (i : Nat) : List Nat := (sizes.foldr unravelAxis ([], i)).1

/-- What a coordinate, if there is one, adds to a position along its axis. -/
def axisOffset? (sizes : List Nat) (coord : Option Nat) (axis : Nat) : Option Nat := do
  some ((← coord) * (← (strides sizes)[axis]?))

/-- The position that is read in an operand of these sizes at coordinates of the result. -/
def sourceIndex? (sizes coords : List Nat) : Option Nat :=
  if sizes.length ≤ coords.length then
    (sizes.zipIdx.mapM fun (n, axis) => axisOffset? sizes
      (if n = 1 then some 0 else coords[coords.length - sizes.length + axis]?) axis).map List.sum
  else none

/-- The position that is read in a tensor of these sizes at coordinates of its transpose. -/
def permutedIndex? (sizes perm coords : List Nat) : Option Nat :=
  ((coords.zip perm).mapM fun x => axisOffset? sizes (some x.1) x.2).map List.sum

theorem strides_cons (n : Nat) (sizes : List Nat) :
    strides (n :: sizes) = entryCount sizes :: strides sizes := by
  induction sizes generalizing n with
  | nil => rfl
  | cons m sizes ih => rw [strides, ih, List.headD_cons, entryCount]

theorem length_strides (sizes : List Nat) : (strides sizes).length = sizes.length := by
  induction sizes with
  | nil => rfl
  | cons n sizes ih => rw [strides_cons, List.length_cons, ih, List.length_cons]

theorem position_eq_sum (sizes coords : List Nat) :
    position sizes coords = (coords.zipWith (· * ·) (strides sizes)).sum := by
  induction sizes generalizing coords with
  | nil => simp [position, strides]
  | cons n sizes ih =>
    cases coords with
    | nil => rfl
    | cons c coords => rw [position, strides_cons, List.zipWith_cons_cons, List.sum_cons, ih]

theorem foldr_unravelAxis (hpos : 0 < entryCount sizes) (i : Nat) :
    sizes.foldr unravelAxis ([], i) =
      (coordinates sizes (i % entryCount sizes), i / entryCount sizes) := by
  induction sizes with
  | nil => simp [coordinates, entryCount]
  | cons n sizes ih =>
    have hn : 0 < n := Nat.pos_of_mul_pos_right hpos
    have hcount : 0 < entryCount sizes := Nat.pos_of_mul_pos_left hpos
    rw [List.foldr_cons, ih hcount, unravelAxis, Nat.max_eq_left hn, coordinates, entryCount,
      Nat.mod_mul_left_div_self, Nat.mod_mul_left_mod, Nat.div_div_eq_div_mul, Nat.mul_comm n]

theorem unravel_eq_coordinates (h : i < entryCount sizes) :
    unravel sizes i = coordinates sizes i := by
  rw [unravel, foldr_unravelAxis (Nat.zero_lt_of_lt h), Nat.mod_eq_of_lt h]

theorem axisOffset?_eq (c : Nat) (h : i < sizes.length) :
    axisOffset? sizes (some c) i = some (c * (strides sizes).getD i 0) := by
  have h' : i < (strides sizes).length := by rwa [length_strides]
  simp only [axisOffset?, List.getElem?_eq_getElem h', List.getD_eq_getElem _ _ h']
  rfl

theorem sourceIndex?_eq (h : sizes.length ≤ coords.length) :
    sourceIndex? sizes coords = some (position sizes (broadcastCoordinates sizes coords)) := by
  rw [sourceIndex?, if_pos h, position_eq_sum]
  refine Option.map_eq_some_iff.mpr ⟨_, mapM_eq_some_iff.mpr ?_, rfl⟩
  refine List.ext_getElem ?_ fun axis haxis _ => ?_
  · simp [broadcastCoordinates, length_strides]
    omega
  · have hlt : axis < sizes.length := by simpa using haxis
    have hcoord : coords.length - sizes.length + axis < coords.length := by omega
    have hstride : axis < (strides sizes).length := (length_strides sizes).symm ▸ hlt
    simp only [List.getElem_map, List.getElem_zipIdx, List.getElem_zipWith, broadcastCoordinates,
      List.getElem_drop, List.getElem?_eq_getElem hcoord, Nat.zero_add]
    rw [← apply_ite some, axisOffset?_eq _ hlt, List.getD_eq_getElem _ _ hstride]

theorem permutedIndex?_eq (hperm : isPermutation perm = true) (hlen : perm.length = sizes.length)
    (hcoords : coords.length = perm.length) :
    permutedIndex? sizes perm coords = some (position sizes (permutedCoordinates perm coords)) := by
  obtain ⟨hlt, hnodup⟩ := isPermutation_iff.mp hperm
  -- the offset of an axis, wherever the permutation puts it
  let offset (axis : Nat) : Nat := coords.getD (perm.idxOf axis) 0 * (strides sizes).getD axis 0
  have hoffsets : ((coords.zip perm).mapM fun x => axisOffset? sizes (some x.1) x.2) =
      some (perm.map offset) := by
    refine mapM_eq_some_iff.mpr (List.ext_getElem (by simp [hcoords]) fun k _ hk => ?_)
    have hk : k < perm.length := by simpa using hk
    simp only [List.getElem_map, List.getElem_zip, offset, hnodup.idxOf_getElem k hk,
      axisOffset?_eq _ (hlen ▸ hlt _ (List.getElem_mem hk)),
      List.getD_eq_getElem coords 0 (hcoords.symm ▸ hk)]
  have hposition : (permutedCoordinates perm coords).zipWith (· * ·) (strides sizes) =
      (List.range perm.length).map offset := by
    refine List.ext_getElem (by simp [permutedCoordinates, length_strides, hlen]) fun k hk _ => ?_
    have hk : k < (strides sizes).length := (List.lt_length_right_of_zipWith hk)
    simp only [List.getElem_zipWith, permutedCoordinates, List.getElem_map, List.getElem_range,
      offset, List.getD_eq_getElem _ _ hk]
  rw [permutedIndex?, hoffsets, position_eq_sum, hposition, Option.map_some,
    ((perm_range_of_isPermutation hperm).map offset).sum_nat]

/-! ### Broadcast coordinates -/

/-- The sizes are those of an operand that a broadcast stretches to the joined ones. -/
def Stretches (sizes joined : List Nat) : Prop :=
  List.Forall₂ (fun n m => n = 1 ∨ n = m) (alignRight 1 joined.length sizes) joined

theorem eq_one_or_eq_of_broadcastSize {a b : Nat} (h : broadcastSize a b = some n) :
    (a = 1 ∨ a = n) ∧ (b = 1 ∨ b = n) := by
  unfold broadcastSize at h
  grind

theorem forall₂_of_mapM_zip {left right : List Nat} (hlen : left.length = right.length)
    (h : ((left.zip right).mapM fun (a, b) => broadcastSize a b) = some joined) :
    List.Forall₂ (fun n m => n = 1 ∨ n = m) left joined ∧
      List.Forall₂ (fun n m => n = 1 ∨ n = m) right joined := by
  rw [mapM_eq_some_iff] at h
  induction left generalizing right joined with
  | nil =>
    obtain rfl := List.length_eq_zero_iff.mp hlen.symm
    obtain rfl := List.map_eq_nil_iff.mp h.symm
    exact ⟨.nil, .nil⟩
  | cons a left ih =>
    obtain ⟨b, right, rfl⟩ := List.exists_cons_of_length_eq_add_one hlen.symm
    obtain ⟨n, joined, rfl, hn, h⟩ := List.map_eq_cons_iff.mp h.symm
    obtain ⟨hl, hr⟩ := ih (Nat.succ.inj hlen) h.symm
    obtain ⟨ha, hb⟩ := eq_one_or_eq_of_broadcastSize hn.symm
    exact ⟨.cons ha hl, .cons hb hr⟩

theorem stretches_of_broadcastSizes {left right : List Nat}
    (h : broadcastSizes left right = some joined) :
    Stretches left joined ∧ Stretches right joined := by
  have hlen : joined.length = max left.length right.length := by
    simpa [alignRight] using (congrArg List.length (mapM_eq_some_iff.mp h)).symm
  unfold Stretches
  rw [hlen]
  exact forall₂_of_mapM_zip (by simp [alignRight]) h

namespace Stretches

variable (h : Stretches sizes joined)
include h

theorem length_le : sizes.length ≤ joined.length := by
  have hlen := List.Forall₂.length_eq h
  simp only [alignRight, List.length_append, List.length_replicate] at hlen
  omega

theorem drop : List.Forall₂ (fun n m => n = 1 ∨ n = m) sizes
    (joined.drop (joined.length - sizes.length)) := by
  have hdrop := List.forall₂_drop (joined.length - sizes.length) h
  rwa [alignRight, List.drop_left' (List.length_replicate ..)] at hdrop

theorem within (hc : Within joined coords) :
    Within sizes (broadcastCoordinates sizes coords) := by
  have hdrop := List.forall₂_drop (joined.length - sizes.length) hc
  rw [broadcastCoordinates, hc.length]
  have hsizes := h.drop
  generalize joined.drop (joined.length - sizes.length) = rest at hsizes hdrop
  generalize coords.drop (joined.length - sizes.length) = cs at hdrop
  clear h hc
  induction hsizes generalizing cs with
  | nil => exact .nil
  | @cons n m sizes rest hn _ ih =>
    obtain ⟨c, cs, hlt, hcs, rfl⟩ := List.forall₂_cons_right_iff.mp hdrop
    refine .cons ?_ (ih cs hcs)
    dsimp only
    split
    · omega
    · rcases hn with hn | rfl
      · contradiction
      · exact hlt

end Stretches

/-! ### Folds -/

namespace Tensor

variable {a b r t : Tensor} {elementType : ElementType} {entry : List Nat → Float} {x : Float}

/-- The coordinates are within the sizes, and the payload holds the number at their position. -/
def Reads (t : Tensor) (coords : List Nat) (x : Float) : Prop :=
  Within t.sizes coords ∧ t.data[position t.sizes coords]? = some x

/-- The payload of two operands combined, position by position. -/
def combinedData? (f : Float → Float → Float) (a b : Tensor) (sizes : List Nat) :
    Option (List Float) :=
  (List.range (entryCount sizes)).mapM fun i => do
    let x ← a.data[← sourceIndex? a.sizes (unravel sizes i)]?
    let y ← b.data[← sourceIndex? b.sizes (unravel sizes i)]?
    some (a.elementType.cast (f x y))

/-- The payload of a transpose with these sizes, position by position. -/
def transposedData? (t : Tensor) (perm sizes : List Nat) : Option (List Float) :=
  (List.range t.data.size).mapM fun i => do
    t.data[← permutedIndex? t.sizes perm (unravel sizes i)]?

theorem reads_entry (h : Within t.sizes coords) : t.Reads coords (t.entry coords) := by
  have hlt : position t.sizes coords < t.data.size := t.size_data ▸ h.position_lt
  refine ⟨h, ?_⟩
  rw [entry, Array.getD_eq_getD_getElem?, Array.getElem?_eq_getElem hlt, Option.getD_some]

theorem reads_tabulate (h : Within sizes coords) :
    (tabulate elementType sizes entry).Reads coords (entry coords) := by
  have hreads := reads_entry (t := tabulate elementType sizes entry) h
  rwa [entry_tabulate h] at hreads

theorem toList_data_tabulate (elementType : ElementType) (sizes : List Nat)
    (entry : List Nat → Float) : (tabulate elementType sizes entry).data.toList =
      (List.range (entryCount sizes)).map fun i => entry (coordinates sizes i) := by
  refine List.ext_getElem (by simp [tabulate]) fun i _ _ => ?_
  simp [tabulate]

/-- The tensor holds at its coordinates what the operands hold where a broadcast reads them. -/
structure Combines (f : Float → Float → Float) (a b r : Tensor) : Prop where
  elementType : r.elementType = a.elementType
  sizes : broadcastSizes a.sizes b.sizes = some r.sizes
  data : combinedData? f a b r.sizes = some r.data.toList
  entries : ∀ coords, Within r.sizes coords → ∃ x y,
    a.Reads (broadcastCoordinates a.sizes coords) x ∧
    b.Reads (broadcastCoordinates b.sizes coords) y ∧
    r.Reads coords (a.elementType.cast (f x y))

/-- The tensor holds at its coordinates what the other one holds at the coordinates that the
permutation takes to them, and there is one such list of coordinates. -/
structure Transposes (perm : List Nat) (t r : Tensor) : Prop where
  elementType : r.elementType = t.elementType
  sizes : r.sizes = perm.map fun axis => t.sizes.getD axis 0
  data : transposedData? t perm r.sizes = some r.data.toList
  entries : ∀ coords, Within r.sizes coords → ∃ d x, t.Reads d x ∧ r.Reads coords x ∧
    ∀ d', d'.length = perm.length ∧ (∀ i (h : i < perm.length), d'[perm[i]]? = coords[i]?) ↔ d' = d

theorem combinedData?_eq {f : Float → Float → Float} (hleft : Stretches a.sizes sizes)
    (hright : Stretches b.sizes sizes) : combinedData? f a b sizes =
      some ((List.range (entryCount sizes)).map fun i => a.elementType.cast
        (f (a.entry (broadcastCoordinates a.sizes (coordinates sizes i)))
          (b.entry (broadcastCoordinates b.sizes (coordinates sizes i))))) := by
  rw [combinedData?, mapM_eq_some_iff, List.map_map]
  refine List.map_congr_left fun i hi => ?_
  have hi : i < entryCount sizes := List.mem_range.mp hi
  have hc := within_coordinates hi
  simp only [unravel_eq_coordinates hi, bind, Option.bind_some, Function.comp_apply,
    sourceIndex?_eq (hleft.length_le.trans_eq hc.length.symm), (reads_entry (hleft.within hc)).2,
    sourceIndex?_eq (hright.length_le.trans_eq hc.length.symm), (reads_entry (hright.within hc)).2]

theorem combines_of_zipWith? {f : Float → Float → Float} (h : a.zipWith? f b = some r) :
    Combines f a b r := by
  obtain ⟨-, h⟩ := Option.ite_none_right_eq_some.mp h
  obtain ⟨sizes, hsizes, rfl⟩ := Option.map_eq_some_iff.mp h
  obtain ⟨hleft, hright⟩ := stretches_of_broadcastSizes hsizes
  refine ⟨rfl, hsizes, ?_, fun coords hc => ?_⟩
  · rw [toList_data_tabulate]
    exact combinedData?_eq hleft hright
  · exact ⟨_, _, reads_entry (hleft.within hc), reads_entry (hright.within hc), reads_tabulate hc⟩

end Tensor

/-! ### Transposed coordinates -/

theorem isPermutation_of_perm_range (h : perm.Perm (List.range n)) :
    isPermutation perm = true ∧ perm.length = n := by
  have hlen : perm.length = n := h.length_eq.trans List.length_range
  refine ⟨isPermutation_iff.mpr ⟨fun axis ha => ?_, h.nodup_iff.mpr List.nodup_range⟩, hlen⟩
  exact hlen ▸ List.mem_range.mp (h.mem_iff.mp ha)

theorem getElem?_permutedCoordinates (hperm : isPermutation perm = true)
    (hcoords : coords.length = perm.length) (hi : i < perm.length) :
    (permutedCoordinates perm coords)[perm[i]]? = coords[i]? := by
  obtain ⟨hlt, hnodup⟩ := isPermutation_iff.mp hperm
  have haxis : perm[i] < perm.length := hlt _ (List.getElem_mem hi)
  rw [permutedCoordinates, List.getElem?_map, List.getElem?_range haxis, Option.map_some,
    hnodup.idxOf_getElem i hi, List.getD_eq_getElem _ _ (hcoords.symm ▸ hi),
    List.getElem?_eq_getElem]

theorem eq_permutedCoordinates_iff {d : List Nat} (hperm : isPermutation perm = true)
    (hcoords : coords.length = perm.length) :
    d.length = perm.length ∧ (∀ i (h : i < perm.length), d[perm[i]]? = coords[i]?) ↔
      d = permutedCoordinates perm coords := by
  constructor
  · rintro ⟨hlen, hget⟩
    refine List.ext_getElem? fun axis => ?_
    by_cases haxis : axis < perm.length
    · have hi := List.idxOf_lt_length_of_mem (mem_of_isPermutation hperm haxis)
      have hperm' := getElem?_permutedCoordinates hperm hcoords hi
      rw [← hget _ hi, List.getElem_idxOf] at hperm'
      exact hperm'.symm
    · rw [List.getElem?_eq_none (by omega),
        List.getElem?_eq_none (by rw [length_permutedCoordinates]; omega)]
  · rintro rfl
    exact ⟨length_permutedCoordinates perm coords, fun i hi =>
      getElem?_permutedCoordinates hperm hcoords hi⟩

namespace Tensor

variable {a b r t : Tensor}

theorem transposedData?_eq (hperm : isPermutation perm = true)
    (hlen : perm.length = t.sizes.length)
    (hsizes : sizes = perm.map fun axis => t.sizes.getD axis 0) :
    transposedData? t perm sizes = some ((List.range (entryCount sizes)).map fun i =>
      t.entry (permutedCoordinates perm (coordinates sizes i))) := by
  subst hsizes
  rw [transposedData?, mapM_eq_some_iff, List.map_map, t.size_data,
    ← entryCount_permuted hperm hlen]
  refine List.map_congr_left fun i hi => ?_
  have hi := List.mem_range.mp hi
  have hc := within_coordinates hi
  simp only [unravel_eq_coordinates hi, bind, Option.bind_some, Function.comp_apply,
    permutedIndex?_eq hperm hlen (hc.length.trans (List.length_map _)),
    (reads_entry (hc.permuted hperm hlen)).2]

theorem transposes_of_transpose? (h : t.transpose? perm = some r) : Transposes perm t r := by
  obtain ⟨hlen, hperm, rfl⟩ := transpose?_eq_some_iff.mp h
  refine ⟨rfl, rfl, ?_, fun coords hc => ?_⟩
  · rw [toList_data_tabulate]
    exact transposedData?_eq hperm hlen rfl
  · refine ⟨_, _, reads_entry (hc.permuted hperm hlen), reads_tabulate hc, fun d => ?_⟩
    exact eq_permutedCoordinates_iff hperm (hc.length.trans (List.length_map _))

theorem exists_zipWith?_iff {f : Float → Float → Float} : (∃ r, a.zipWith? f b = some r) ↔
    a.elementType = b.elementType ∧ ∃ sizes, broadcastSizes a.sizes b.sizes = some sizes := by
  constructor
  · rintro ⟨r, h⟩
    obtain ⟨helement, h⟩ := Option.ite_none_right_eq_some.mp h
    obtain ⟨sizes, hsizes, -⟩ := Option.map_eq_some_iff.mp h
    exact ⟨helement, sizes, hsizes⟩
  · rintro ⟨helement, sizes, hsizes⟩
    exact ⟨_, (if_pos helement).trans (congrArg (Option.map _) hsizes)⟩

theorem exists_transpose?_iff :
    (∃ r, t.transpose? perm = some r) ↔ perm.Perm (List.range t.sizes.length) := by
  simp only [transpose?_eq_some_iff]
  constructor
  · rintro ⟨_, hlen, hperm, -⟩
    exact hlen ▸ perm_range_of_isPermutation hperm
  · intro h
    obtain ⟨hperm, hlen⟩ := isPermutation_of_perm_range h
    exact ⟨_, hlen, hperm, rfl⟩

/-- Operands are combined just if they are of one element type and broadcast, and a tensor is
transposed along any permutation of its axes. Both happen entry by entry, and the loops that do it
position by position read nothing outside the payloads. -/
theorem folds_read : (∀ (f : Float → Float → Float) (a b : Tensor),
      ((∃ r, a.zipWith? f b = some r) ↔
        a.elementType = b.elementType ∧ ∃ sizes, broadcastSizes a.sizes b.sizes = some sizes) ∧
      ∀ r, a.zipWith? f b = some r → Combines f a b r) ∧
    ∀ (t : Tensor) (perm : List Nat),
      ((∃ r, t.transpose? perm = some r) ↔ perm.Perm (List.range t.sizes.length)) ∧
      ∀ r, t.transpose? perm = some r → Transposes perm t r :=
  ⟨fun _ _ _ => ⟨exists_zipWith?_iff, fun _ => combines_of_zipWith?⟩,
    fun _ _ => ⟨exists_transpose?_iff, fun _ => transposes_of_transpose?⟩⟩

def column : Tensor := ⟨.f32, [2, 1], #[1, 2], rfl⟩

def row : Tensor := ⟨.f32, [3], #[10, 20, 30], rfl⟩

def block : Tensor := ⟨.f32, [1, 2, 3], #[0, 1, 2, 3, 4, 5], rfl⟩

/-- A column and a row are both stretched, and the axes of a block are rotated. -/
theorem folds_read_rotated : column.elementType = row.elementType ∧
    broadcastSizes column.sizes row.sizes = some [2, 3] ∧
    [1, 2, 0].Perm (List.range block.sizes.length) ∧
    (∃ r, column.zipWith? (· + ·) row = some r ∧ r.sizes = [2, 3] ∧
      r.Reads [1, 2] (ElementType.f32.cast (2 + 30))) ∧
    ∃ r, block.transpose? [1, 2, 0] = some r ∧ r.sizes = [2, 3, 1] ∧ r.Reads [1, 2, 0] 5 := by
  have hsizes : broadcastSizes column.sizes row.sizes = some [2, 3] := by decide
  have hperm : [1, 2, 0].Perm (List.range block.sizes.length) := by decide
  obtain ⟨hcombined, hcombines⟩ := folds_read.1 (· + ·) column row
  obtain ⟨htransposed, htransposes⟩ := folds_read.2 block [1, 2, 0]
  obtain ⟨r, hr⟩ := hcombined.mpr ⟨rfl, _, hsizes⟩
  obtain ⟨r', hr'⟩ := htransposed.mpr hperm
  replace hcombines := hcombines r hr
  replace htransposes := htransposes r' hr'
  have hrsizes : r.sizes = [2, 3] := Option.some.inj (hcombines.sizes.symm.trans hsizes)
  have hrsizes' : r'.sizes = [2, 3, 1] := htransposes.sizes
  refine ⟨rfl, hsizes, hperm, ⟨r, hr, hrsizes, ?_⟩, r', hr', hrsizes', ?_⟩
  · obtain ⟨x, y, hx, hy, hread⟩ := hcombines.entries [1, 2] (by simp [Within, hrsizes])
    obtain rfl : 2 = x := Option.some.inj hx.2
    obtain rfl : 30 = y := Option.some.inj hy.2
    exact hread
  · obtain ⟨d, x, hx, hread, hd⟩ := htransposes.entries [1, 2, 0] (by simp [Within, hrsizes'])
    obtain rfl : [0, 1, 2] = d := (hd _).mp ⟨rfl, by decide⟩
    obtain rfl : 5 = x := Option.some.inj hx.2
    exact hread

end Tensor

end TensorGraph
