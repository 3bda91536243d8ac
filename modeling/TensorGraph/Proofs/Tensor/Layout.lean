import Mathlib.Data.List.Forall2
import Mathlib.Data.List.GetD
import Mathlib.Data.List.Nodup
import Mathlib.Data.List.Range
import TensorGraph.Proofs.Arena.Validity
import TensorGraph.Tensor.Fold

/-! # Layouts of tensors

Positions and coordinates correspond to each other, so a tensor is given by its entries. Two
transposes in a row are one along the composed permutation, and of two reshapes in a row only the
second one counts.
-/

namespace TensorGraph

variable {sizes coords perm first second : List Nat} {i n : Nat}

/-! ### Coordinates -/

def Within (sizes coords : List Nat) : Prop := List.Forall₂ (· < ·) coords sizes

theorem within_coordinates (h : i < entryCount sizes) : Within sizes (coordinates sizes i) := by
  induction sizes generalizing i with
  | nil => exact .nil
  | cons n sizes ih =>
    have hpos : 0 < entryCount sizes := Nat.pos_of_lt_mul_left h
    exact .cons (Nat.div_lt_of_lt_mul (Nat.mul_comm n _ ▸ h)) (ih (Nat.mod_lt i hpos))

theorem Within.position_lt (h : Within sizes coords) :
    position sizes coords < entryCount sizes := by
  induction h with
  | nil => exact Nat.one_pos
  | @cons c n cs sizes hc _ ih =>
    rw [position, entryCount]
    calc c * entryCount sizes + position sizes cs
        < (c + 1) * entryCount sizes := by rw [Nat.succ_mul]; omega
      _ ≤ n * entryCount sizes := Nat.mul_le_mul_right _ hc

theorem Within.coordinates_position (h : Within sizes coords) :
    coordinates sizes (position sizes coords) = coords := by
  induction h with
  | nil => rfl
  | cons hc h ih =>
    have hlt := Within.position_lt h
    rw [position, coordinates, Nat.mul_comm, Nat.mul_add_div (by omega), Nat.div_eq_of_lt hlt,
      Nat.mul_add_mod, Nat.mod_eq_of_lt hlt, ih, Nat.add_zero]

theorem Within.length (h : Within sizes coords) : coords.length = sizes.length :=
  List.Forall₂.length_eq h

theorem Within.getD_lt (h : Within sizes coords) (hi : i < sizes.length) :
    coords.getD i 0 < sizes.getD i 0 := by
  have hi' := h.length.symm ▸ hi
  rw [List.getD_eq_getElem _ _ hi, List.getD_eq_getElem _ _ hi']
  exact List.Forall₂.get h hi' hi

/-! ### Tensors by their entries -/

namespace Tensor

variable {t u v : Tensor} {elementType : ElementType} {entry entry' : List Nat → Float}

theorem ext_data (helement : t.elementType = u.elementType) (hsizes : t.sizes = u.sizes)
    (hdata : t.data = u.data) : t = u := by
  cases t
  cases u
  cases helement
  cases hsizes
  cases hdata
  rfl

theorem entry_tabulate (h : Within sizes coords) :
    (tabulate elementType sizes entry).entry coords = entry coords := by
  have hlt := h.position_lt
  simp only [tabulate, Tensor.entry, Array.getD_eq_getD_getElem?]
  rw [Array.getElem?_eq_getElem (by simpa using hlt), Array.getElem_ofFn, h.coordinates_position,
    Option.getD_some]

theorem tabulate_congr (h : ∀ coords, Within sizes coords → entry coords = entry' coords) :
    tabulate elementType sizes entry = tabulate elementType sizes entry' := by
  refine ext_data rfl rfl (congrArg Array.ofFn ?_)
  funext i
  exact h _ (within_coordinates i.isLt)

theorem tabulate_entry (t : Tensor) : tabulate t.elementType t.sizes t.entry = t := by
  refine ext_data rfl rfl (Array.ext ?_ fun i _ hi => ?_)
  · exact Array.size_ofFn.trans t.size_data.symm
  · have hlt : i < entryCount t.sizes := t.size_data ▸ hi
    simp only [tabulate, Array.getElem_ofFn, Tensor.entry, position_coordinates hlt,
      Array.getD_eq_getD_getElem?, Array.getElem?_eq_getElem hi, Option.getD_some]

end Tensor

/-! ### Permutations -/

theorem isPermutation_iff :
    isPermutation perm = true ↔ (∀ axis ∈ perm, axis < perm.length) ∧ perm.Nodup := by
  simp [isPermutation]

theorem perm_range_of_isPermutation (h : isPermutation perm = true) :
    perm.Perm (List.range perm.length) := by
  obtain ⟨hlt, hnodup⟩ := isPermutation_iff.mp h
  refine (List.subperm_of_subset hnodup fun axis ha => ?_).perm_of_length_le ?_
  · exact List.mem_range.mpr (hlt axis ha)
  · rw [List.length_range]

theorem mem_of_isPermutation (h : isPermutation perm = true) (hi : i < perm.length) : i ∈ perm :=
  (perm_range_of_isPermutation h).mem_iff.mpr (List.mem_range.mpr hi)

theorem getD_map_perm (l : List Nat) (hi : i < perm.length) :
    (perm.map fun axis => l.getD axis 0).getD i 0 = l.getD perm[i] 0 := by
  rw [List.getD_eq_getElem _ _ (by simpa using hi), List.getElem_map]

theorem length_permutedCoordinates (perm coords : List Nat) :
    (permutedCoordinates perm coords).length = perm.length := by
  simp [permutedCoordinates]

theorem getD_permutedCoordinates (coords : List Nat) (hi : i < perm.length) :
    (permutedCoordinates perm coords).getD i 0 = coords.getD (perm.idxOf i) 0 := by
  rw [permutedCoordinates, List.getD_eq_getElem _ _ (by simpa using hi), List.getElem_map,
    List.getElem_range]

theorem Within.permuted (hperm : isPermutation perm = true) (hlen : perm.length = sizes.length)
    (h : Within (perm.map fun axis => sizes.getD axis 0) coords) :
    Within sizes (permutedCoordinates perm coords) := by
  refine List.forall₂_iff_get.mpr ⟨(length_permutedCoordinates perm coords).trans hlen, ?_⟩
  intro axis haxis hsize
  have hmem := mem_of_isPermutation hperm (hlen.symm ▸ hsize)
  have hidx := List.idxOf_lt_length_of_mem hmem
  have hlt := h.getD_lt (i := perm.idxOf axis) (by simpa using hidx)
  rw [getD_map_perm _ hidx, List.getElem_idxOf, List.getD_eq_getElem _ _ hsize] at hlt
  simpa [permutedCoordinates] using hlt

theorem idxOf_range (hi : i < n) : (List.range n).idxOf i = i := by
  have h := List.nodup_range.idxOf_getElem i (by simpa using hi)
  rwa [List.getElem_range] at h

theorem permutedCoordinates_range (h : coords.length = n) :
    permutedCoordinates (List.range n) coords = coords := by
  refine List.ext_getElem (by simp [permutedCoordinates, h]) fun axis _ hi => ?_
  have hlt : axis < n := h ▸ hi
  simp only [permutedCoordinates, List.getElem_map, List.getElem_range, idxOf_range hlt]
  exact List.getD_eq_getElem _ _ hi

theorem map_getD_range (sizes : List Nat) :
    (List.range sizes.length).map (fun axis => sizes.getD axis 0) = sizes := by
  refine List.ext_getElem (by simp) fun axis _ hi => ?_
  rw [List.getElem_map, List.getElem_range, List.getD_eq_getElem _ _ hi]

theorem entryCount_perm {sizes' : List Nat} (h : sizes.Perm sizes') :
    entryCount sizes = entryCount sizes' := by
  induction h with
  | nil => rfl
  | cons n _ ih => rw [entryCount, ih, entryCount]
  | swap n m sizes => simp only [entryCount, Nat.mul_left_comm]
  | trans _ _ ih ih' => exact ih.trans ih'

theorem entryCount_permuted (h : isPermutation perm = true) (hlen : perm.length = sizes.length) :
    entryCount (perm.map fun axis => sizes.getD axis 0) = entryCount sizes := by
  have hmap := (perm_range_of_isPermutation h).map fun axis => sizes.getD axis 0
  rw [hlen, map_getD_range] at hmap
  exact entryCount_perm hmap

/-- The axes of the one permutation, looked up in the order of the other. -/
structure Composes (first second perm : List Nat) : Prop where
  length : first.length = second.length
  permutes : isPermutation first = true
  permutes' : isPermutation second = true
  composed : perm = second.map fun axis => first.getD axis 0

namespace Composes

variable (h : Composes first second perm)
include h

theorem length_eq : perm.length = second.length := by rw [h.composed, List.length_map]

theorem getElem (hi : i < second.length) (hi' : i < perm.length) :
    perm[i] = first.getD second[i] 0 := by
  simp only [h.composed, List.getElem_map]

theorem isPermutation : isPermutation perm = true := by
  obtain ⟨hlt, hnodup⟩ := isPermutation_iff.mp h.permutes
  obtain ⟨hlt', hnodup'⟩ := isPermutation_iff.mp h.permutes'
  have hget {axis : Nat} (ha : axis ∈ second) : ∃ ha' : axis < first.length,
      first.getD axis 0 = first[axis] :=
    ⟨h.length ▸ hlt' axis ha, List.getD_eq_getElem _ _ _⟩
  rw [isPermutation_iff, h.length_eq, h.composed]
  refine ⟨fun axis ha => ?_, hnodup'.map_on fun a ha b hb e => ?_⟩
  · obtain ⟨a, hmem, rfl⟩ := List.mem_map.mp ha
    obtain ⟨ha', hget⟩ := hget hmem
    rw [hget, ← h.length]
    exact hlt _ (List.getElem_mem ha')
  · obtain ⟨ha', hgeta⟩ := hget ha
    obtain ⟨hb', hgetb⟩ := hget hb
    rw [hgeta, hgetb] at e
    exact (hnodup.getElem_inj_iff).mp e

theorem idxOf (hi : i < first.length) :
    perm.idxOf i = second.idxOf (first.idxOf i) := by
  have hfirst := List.idxOf_lt_length_of_mem (mem_of_isPermutation h.permutes hi)
  have hsecond := List.idxOf_lt_length_of_mem (mem_of_isPermutation h.permutes' (h.length ▸ hfirst))
  have hperm : second.idxOf (first.idxOf i) < perm.length := h.length_eq.symm ▸ hsecond
  have hget : perm[second.idxOf (first.idxOf i)] = i := by
    rw [h.getElem hsecond, List.getElem_idxOf, List.getD_eq_getElem _ _ hfirst, List.getElem_idxOf]
  have hidx := (isPermutation_iff.mp h.isPermutation).2.idxOf_getElem _ hperm
  rwa [hget] at hidx

theorem permutedCoordinates (coords : List Nat) :
    permutedCoordinates first (permutedCoordinates second coords) =
      permutedCoordinates perm coords := by
  refine List.ext_getElem ?_ fun axis haxis _ => ?_
  · rw [length_permutedCoordinates, length_permutedCoordinates, h.length, h.length_eq]
  · rw [length_permutedCoordinates] at haxis
    have hidx := List.idxOf_lt_length_of_mem (mem_of_isPermutation h.permutes haxis)
    simp only [TensorGraph.permutedCoordinates, List.getElem_map, List.getElem_range]
    rw [h.idxOf haxis]
    exact getD_permutedCoordinates coords (h.length ▸ hidx)

end Composes

theorem composes_of_mapM (hlength : first.length = second.length)
    (hfirst : isPermutation first = true) (hsecond : isPermutation second = true)
    (hc : second.mapM (fun axis => first[axis]?) = some perm) : Composes first second perm := by
  refine ⟨hlength, hfirst, hsecond, ?_⟩
  have hmap := congrArg (List.map fun x => Option.getD x 0) (mapM_eq_some_iff.mp hc)
  simpa [Function.comp_def] using hmap.symm

/-! ### Transposes -/

namespace Tensor

variable {t u v : Tensor}

theorem transpose?_eq_some_iff : t.transpose? perm = some u ↔
    perm.length = t.sizes.length ∧ isPermutation perm = true ∧
      tabulate t.elementType (perm.map fun axis => t.sizes.getD axis 0)
        (fun coords => t.entry (permutedCoordinates perm coords)) = u := by
  unfold transpose?
  split
  · rename_i h
    simp [h]
  · rename_i h
    simp only [false_iff, reduceCtorEq, not_and]
    exact fun hlen hperm => absurd ⟨hlen, hperm⟩ h

theorem transpose?_eq_self (hid : isIdentityPermutation perm = true)
    (h : t.transpose? perm = some u) : u = t := by
  obtain ⟨hlen, -, rfl⟩ := transpose?_eq_some_iff.mp h
  obtain rfl : perm = List.range t.sizes.length := by
    rw [← hlen]
    exact eq_of_beq hid
  rw [map_getD_range]
  refine (tabulate_congr fun coords hc => ?_).trans t.tabulate_entry
  rw [permutedCoordinates_range hc.length]

theorem transpose?_transpose? (h : t.transpose? first = some u) (h' : u.transpose? second = some v)
    (hc : second.mapM (fun axis => first[axis]?) = some perm) : t.transpose? perm = some v := by
  obtain ⟨hlen, hfirst, rfl⟩ := transpose?_eq_some_iff.mp h
  obtain ⟨hlen', hsecond, rfl⟩ := transpose?_eq_some_iff.mp h'
  have hlength : first.length = second.length := by simpa [tabulate] using hlen'.symm
  have hcomposes := composes_of_mapM hlength hfirst hsecond hc
  have hcomposed := hcomposes.composed
  have hsizes : (second.map fun axis => (first.map fun axis => t.sizes.getD axis 0).getD axis 0) =
      perm.map fun axis => t.sizes.getD axis 0 := by
    rw [hcomposed, List.map_map]
    refine List.map_congr_left fun axis ha => ?_
    have haxis : axis < first.length := hlength ▸ (isPermutation_iff.mp hsecond).1 axis ha
    rw [getD_map_perm _ haxis, Function.comp_apply, List.getD_eq_getElem _ _ haxis]
  refine transpose?_eq_some_iff.mpr ⟨?_, hcomposes.isPermutation, ?_⟩
  · rw [hcomposes.length_eq, ← hlength, hlen]
  · rw [← hsizes]
    refine tabulate_congr fun coords hcoords => ?_
    have hwithin := hcoords.permuted hsecond (by simpa using hlength.symm)
    rw [← hcomposes.permutedCoordinates coords, entry_tabulate hwithin]

/-! ### Reshapes -/

theorem withSizes?_eq_some_iff : t.withSizes? sizes = some u ↔
    u.elementType = t.elementType ∧ u.sizes = sizes ∧ u.data = t.data := by
  unfold withSizes?
  split
  · rename_i h
    refine ⟨?_, fun ⟨helement, hsizes, hdata⟩ => ?_⟩
    · rintro ⟨⟩
      exact ⟨rfl, rfl, rfl⟩
    · exact congrArg some (ext_data helement.symm hsizes.symm hdata.symm)
  · rename_i h
    refine ⟨nofun, fun ⟨_, hsizes, hdata⟩ => absurd ?_ h⟩
    rw [← hdata, ← hsizes, u.size_data]

theorem reshape?_eq_some_iff {target : List Int} {specialZero : Bool} :
    t.reshape? target specialZero = some u ↔ resolveTarget? t.sizes target specialZero =
      some u.sizes ∧ u.elementType = t.elementType ∧ u.data = t.data := by
  simp only [reshape?, bind, Option.bind_eq_some_iff, withSizes?_eq_some_iff]
  constructor
  · rintro ⟨sizes, hsizes, helement, rfl, hdata⟩
    exact ⟨hsizes, helement, hdata⟩
  · rintro ⟨hsizes, helement, hdata⟩
    exact ⟨_, hsizes, helement, rfl, hdata⟩

theorem reshape?_eq_self {target : List Int} {specialZero : Bool}
    (h : t.reshape? target specialZero = some u) (hsizes : u.sizes = t.sizes) : u = t := by
  obtain ⟨-, helement, hdata⟩ := reshape?_eq_some_iff.mp h
  exact ext_data helement hsizes hdata

end Tensor

/-- No item of the target is read off the input. -/
def SelfContained (target : List Int) (specialZero : Bool) : Prop :=
  specialZero = true → (0 : Int) ∉ target

theorem targetSize?_congr {sizes sizes' : List Nat} {specialZero : Bool} {item : Int} {axis : Nat}
    (h : specialZero = true → item ≠ 0) :
    targetSize? sizes specialZero item axis = targetSize? sizes' false item axis := by
  unfold targetSize?
  cases specialZero with
  | false => simp
  | true => simp [h rfl]

theorem resolveTarget?_congr {sizes sizes' : List Nat} {target : List Int} {specialZero : Bool}
    (h : SelfContained target specialZero) (hcount : entryCount sizes = entryCount sizes') :
    resolveTarget? sizes target specialZero = resolveTarget? sizes' target false := by
  have hliteral : target.zipIdx.map (fun x => targetSize? sizes specialZero x.1 x.2) =
      target.zipIdx.map fun x => targetSize? sizes' false x.1 x.2 := by
    refine List.map_congr_left fun x hx => targetSize?_congr fun hz he => h hz ?_
    exact he ▸ List.fst_mem_of_mem_zipIdx hx
  have hsizes : targetSizes? sizes target specialZero = targetSizes? sizes' target false :=
    Option.ext fun l => by rw [targetSizes?, mapM_eq_some_iff, targetSizes?, mapM_eq_some_iff, hliteral]
  simp only [resolveTarget?, hcount, hsizes]

theorem Tensor.reshape?_reshape? {t u v : Tensor} {target target' : List Int}
    {specialZero specialZero' : Bool} (h : t.reshape? target specialZero = some u)
    (h' : u.reshape? target' specialZero' = some v) (hself : SelfContained target' specialZero') :
    t.reshape? target' false = some v := by
  obtain ⟨-, helement, hdata⟩ := reshape?_eq_some_iff.mp h
  obtain ⟨hsizes, helement', hdata'⟩ := reshape?_eq_some_iff.mp h'
  have hcount : entryCount u.sizes = entryCount t.sizes := by
    rw [← u.size_data, ← t.size_data, hdata]
  rw [resolveTarget?_congr hself hcount] at hsizes
  exact reshape?_eq_some_iff.mpr ⟨hsizes, helement'.trans helement, hdata'.trans hdata⟩

end TensorGraph
