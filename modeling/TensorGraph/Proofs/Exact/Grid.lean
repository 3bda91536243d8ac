import TensorGraph.Proofs.Tensor.Layout

/-! # Exact tensors

Entries of any kind under sizes, in row-major order. A grid is given by what is read at each
coordinates within its sizes; two grids are combined as they broadcast to common sizes.
-/

namespace TensorGraph

variable {γ δ ε : Type} {sizes sizes' coords : List Nat} {n a : Nat}

structure Grid (γ : Type) where
  sizes : List Nat
  data : List γ
  length_data : data.length = entryCount sizes
deriving DecidableEq

instance : Decidable (Within sizes coords) :=
  inferInstanceAs (Decidable (List.Forall₂ (· < ·) coords sizes))

namespace Grid

variable {x y : Grid γ} {entry entry' : List Nat → Option γ} {q : γ}

def read? (x : Grid γ) (coords : List Nat) : Option γ :=
  if Within x.sizes coords then x.data[position x.sizes coords]? else none

def ofData? (sizes : List Nat) (data : List γ) : Option (Grid γ) :=
  if h : data.length = entryCount sizes then some ⟨sizes, data, h⟩ else none

/-- The grid with these entries, if all of them are there. -/
def build? (sizes : List Nat) (entry : List Nat → Option γ) : Option (Grid γ) := do
  ofData? sizes (← (List.range (entryCount sizes)).mapM fun i => entry (coordinates sizes i))

def ofTensor (read : Float → γ) (t : Tensor) : Grid γ :=
  ⟨t.sizes, t.data.toList.map read, by rw [List.length_map, Array.length_toList, t.size_data]⟩

/-! ### Entries -/

theorem ext_data (hsizes : x.sizes = y.sizes) (hdata : x.data = y.data) : x = y := by
  cases x
  cases y
  cases hsizes
  cases hdata
  rfl

theorem read?_of_within (h : Within x.sizes coords) :
    x.read? coords = x.data[position x.sizes coords]? := if_pos h

theorem within_of_read? (h : x.read? coords = some q) : Within x.sizes coords := by
  unfold read? at h
  split at h
  · assumption
  · cases h

theorem exists_read? (h : Within x.sizes coords) : ∃ q, x.read? coords = some q := by
  have hlt : position x.sizes coords < x.data.length := x.length_data ▸ h.position_lt
  exact ⟨_, (read?_of_within h).trans (List.getElem?_eq_getElem hlt)⟩

theorem getElem?_data {i : Nat} (h : i < entryCount x.sizes) :
    x.data[i]? = x.read? (coordinates x.sizes i) := by
  rw [read?_of_within (within_coordinates h), position_coordinates h]

theorem ofData?_eq_some_iff {data : List γ} :
    ofData? sizes data = some x ↔ x.sizes = sizes ∧ x.data = data := by
  unfold ofData?
  split
  · constructor
    · rintro ⟨⟩
      exact ⟨rfl, rfl⟩
    · exact fun h => congrArg some (ext_data h.1.symm h.2.symm)
  · rename_i h
    refine ⟨nofun, fun hx => absurd ?_ h⟩
    rw [← hx.2, ← hx.1, x.length_data]

theorem build?_eq_some_iff : build? sizes entry = some x ↔
    x.sizes = sizes ∧ ∀ coords, Within sizes coords → entry coords = x.read? coords := by
  simp only [build?, bind, Option.bind_eq_some_iff, mapM_eq_some_iff, ofData?_eq_some_iff]
  constructor
  · rintro ⟨data, hdata, rfl, rfl⟩
    refine ⟨rfl, fun coords hc => ?_⟩
    have hget := congrArg (·[position x.sizes coords]?) hdata
    simp only [List.getElem?_map, List.getElem?_range hc.position_lt, Option.map_some,
      hc.coordinates_position] at hget
    obtain ⟨q, hq⟩ := exists_read? hc
    rw [read?_of_within hc] at hq ⊢
    rw [hq] at hget ⊢
    exact Option.some.inj hget
  · rintro ⟨rfl, h⟩
    refine ⟨x.data, List.ext_getElem? fun i => ?_, rfl, rfl⟩
    simp only [List.getElem?_map]
    by_cases hi : i < entryCount x.sizes
    · rw [List.getElem?_range hi, Option.map_some, h _ (within_coordinates hi), ← getElem?_data hi,
        List.getElem?_eq_getElem (x.length_data.symm ▸ hi)]
      rfl
    · have hi := Nat.le_of_not_lt hi
      rw [List.getElem?_eq_none (x.length_data.trans_le hi),
        List.getElem?_eq_none (List.length_range.trans_le hi)]
      rfl

theorem exists_mapM_eq_some {f : δ → Option γ} {l : List δ} (h : ∀ a ∈ l, ∃ b, f a = some b) :
    ∃ bs, l.mapM f = some bs := by
  induction l with
  | nil => exact ⟨[], rfl⟩
  | cons a l ih =>
    obtain ⟨⟨b, hb⟩, hl⟩ := List.forall_mem_cons.mp h
    obtain ⟨bs, hbs⟩ := ih hl
    exact ⟨b :: bs, by simp [hb, hbs]⟩

theorem exists_build? (h : ∀ coords, Within sizes coords → ∃ q, entry coords = some q) :
    ∃ x, build? sizes entry = some x := by
  obtain ⟨data, hdata⟩ := exists_mapM_eq_some (f := fun i => entry (coordinates sizes i))
    (l := List.range (entryCount sizes)) fun i hi =>
      h _ (within_coordinates (List.mem_range.mp hi))
  have hlen : data.length = entryCount sizes := by
    simpa using (congrArg List.length (mapM_eq_some_iff.mp hdata)).symm
  refine ⟨⟨sizes, data, hlen⟩, ?_⟩
  rw [build?, hdata]
  exact ofData?_eq_some_iff.mpr ⟨rfl, rfl⟩

/-! ### Broadcasting -/

/-- What is read where the grid is stretched to larger sizes. -/
def stretched? (x : Grid γ) (coords : List Nat) : Option γ :=
  x.read? (broadcastCoordinates x.sizes coords)

/-- Two grids combined entry by entry, each stretched to the common sizes. -/
def zipWith? (f : γ → δ → Option ε) (x : Grid γ) (y : Grid δ) : Option (Grid ε) := do
  build? (← broadcastSizes x.sizes y.sizes) fun coords => do
    f (← x.stretched? coords) (← y.stretched? coords)

theorem zipWith?_eq_some_iff {f : γ → δ → Option ε} {x : Grid γ} {y : Grid δ} {z : Grid ε} :
    zipWith? f x y = some z ↔ broadcastSizes x.sizes y.sizes = some z.sizes ∧
      ∀ coords, Within z.sizes coords →
        (do f (← x.stretched? coords) (← y.stretched? coords)) = z.read? coords := by
  simp only [zipWith?, bind, Option.bind_eq_some_iff, build?_eq_some_iff]
  constructor
  · rintro ⟨sizes, hsizes, rfl, h⟩
    exact ⟨hsizes, h⟩
  · rintro ⟨hsizes, h⟩
    exact ⟨_, hsizes, rfl, h⟩

end Grid

theorem Within.exists_getLast? (h : Within sizes coords) (hlast : sizes.getLast? = some n) :
    ∃ a, coords.getLast? = some a ∧ a < n := by
  rw [List.getLast?_eq_head?_reverse] at hlast ⊢
  have hreverse := List.rel_reverse h
  generalize coords.reverse = cs, sizes.reverse = ns at hlast hreverse
  cases hreverse with
  | nil => cases hlast
  | cons hc _ =>
    obtain rfl := Option.some.inj hlast
    exact ⟨_, rfl, hc⟩

theorem broadcastCoordinates_self (h : Within sizes coords) :
    broadcastCoordinates sizes coords = coords := by
  rw [broadcastCoordinates, h.length, Nat.sub_self, List.drop_zero]
  induction h with
  | nil => rfl
  | @cons c n _ _ hlt _ ih =>
    rw [List.zipWith_cons_cons, ih]
    split
    · rw [show c = 0 by omega]
    · rfl

theorem broadcastCoordinates_concat (h : sizes.length ≤ coords.length) :
    broadcastCoordinates (sizes ++ [n]) (coords ++ [a]) =
      broadcastCoordinates sizes coords ++ [if n = 1 then 0 else a] := by
  have hlen : (coords ++ [a]).length - (sizes ++ [n]).length = coords.length - sizes.length := by
    simp only [List.length_append, List.length_singleton]
    omega
  rw [broadcastCoordinates, hlen, List.drop_append_of_le_length (Nat.sub_le _ _),
    List.zipWith_append (by rw [List.length_drop]; omega)]
  rfl

end TensorGraph
