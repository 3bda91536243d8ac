import TensorGraph.Proofs.Exact.Numeric
import TensorGraph.Proofs.Exact.Occurrences

/-! # Lists and tables

What the operations make of grids of one or two axes, entry by entry.
-/

namespace TensorGraph

variable {γ δ ε : Type} {m n i j : Nat} {coords : List Nat}

theorem within_singleton_iff : Within [n] coords ↔ ∃ i < n, coords = [i] := by
  constructor
  · rintro (_ | ⟨hi, _ | _⟩)
    exact ⟨_, hi, rfl⟩
  · rintro ⟨i, hi, rfl⟩
    exact .cons hi .nil

theorem within_pair_iff : Within [m, n] coords ↔ ∃ i < m, ∃ j < n, coords = [i, j] := by
  constructor
  · rintro (_ | ⟨hi, _ | ⟨hj, _ | _⟩⟩)
    exact ⟨_, hi, _, hj, rfl⟩
  · rintro ⟨i, hi, j, hj, rfl⟩
    exact .cons hi (.cons hj .nil)

theorem position_singleton : position [n] [i] = i := by simp [position, entryCount]

theorem position_pair : position [m, n] [i, j] = i * n + j := by simp [position, entryCount]

theorem coordinates_pair : coordinates [m, n] i = [i / n, i % n] := by
  simp [coordinates, entryCount]

namespace Grid

def scalar (c : γ) : Grid γ := ⟨[], [c], rfl⟩

def table (f : Fin m → Fin n → γ) : Grid γ :=
  ⟨[m, n], List.ofFn fun k : Fin (m * n) => f k.divNat k.modNat, by simp [entryCount]⟩

variable {l l' : List γ} {c c' : γ} {x y : Grid γ} {f : Fin m → Fin n → γ}
variable {entry : List Nat → Option γ}

/-! ### Entries -/

theorem read?_vec : (vec l).read? [i] = l[i]? := by
  by_cases hi : i < l.length
  · rw [read?_of_within (within_singleton_iff.mpr ⟨i, hi, rfl⟩)]
    exact congrArg (l[·]?) position_singleton
  · rw [List.getElem?_eq_none (Nat.le_of_not_lt hi)]
    refine if_neg fun h => hi ?_
    obtain ⟨_, hlt, h⟩ := within_singleton_iff.mp h
    exact (List.cons.inj h).1 ▸ hlt

theorem getElem?_table (i : Fin m) (j : Fin n) : (table f).data[i * n + j]? = some (f i j) := by
  have hindex : i * n + j = (finProdFinEquiv (i, j) : Nat) := by
    simp [finProdFinEquiv, Nat.mul_comm, Nat.add_comm]
  have hsplit := finProdFinEquiv.symm_apply_apply (i, j)
  rw [hindex, table, List.getElem?_ofFn, dif_pos (finProdFinEquiv (i, j)).isLt]
  exact congrArg (fun p => some (f p.1 p.2)) hsplit

theorem read?_table (i : Fin m) (j : Fin n) : (table f).read? [i, j] = some (f i j) := by
  rw [read?_of_within (within_pair_iff.mpr ⟨i, i.isLt, j, j.isLt, rfl⟩)]
  exact (congrArg ((table f).data[·]?) position_pair).trans (getElem?_table i j)

theorem build?_vec (hn : n = l.length) (h : ∀ i < l.length, entry [i] = l[i]?) :
    build? [n] entry = some (vec l) := by
  subst hn
  refine build?_eq_some_iff.mpr ⟨rfl, fun coords hc => ?_⟩
  obtain ⟨i, hi, rfl⟩ := within_singleton_iff.mp hc
  rw [h i hi, read?_vec]

theorem build?_table (h : ∀ (i : Fin m) (j : Fin n), entry [i, j] = some (f i j)) :
    build? [m, n] entry = some (table f) := by
  refine build?_eq_some_iff.mpr ⟨rfl, fun coords hc => ?_⟩
  obtain ⟨i, hi, j, hj, rfl⟩ := within_pair_iff.mp hc
  exact (h ⟨i, hi⟩ ⟨j, hj⟩).trans (read?_table ⟨i, hi⟩ ⟨j, hj⟩).symm

theorem map_vec (g : γ → δ) : (vec l).map g = vec (l.map g) :=
  ext_data (by simp [map, vec]) rfl

theorem map_table (g : γ → δ) : (table f).map g = table fun i j => g (f i j) :=
  ext_data rfl (by simp [map, table, Function.comp_def])

theorem mapM?_map {g : γ → Option δ} {h : δ → γ} (hg : ∀ a, g (h a) = some a) (x : Grid δ) :
    (x.map h).mapM? g = some x := by
  have hdata : (x.data.map h).mapM g = some x.data := by
    rw [mapM_eq_some_iff, List.map_map]
    exact List.map_congr_left fun a _ => hg a
  exact Option.bind_eq_some_iff.mpr ⟨x.data, hdata, ofData?_eq_some_iff.mpr ⟨rfl, rfl⟩⟩

/-! ### Layout -/

theorem unsqueeze?_row (f : Fin n → γ) :
    (vec (List.ofFn f)).unsqueeze? [0] = some (table fun (_ : Fin 1) j => f j) := by
  refine ofData?_eq_some_iff.mpr ⟨by simp [table], ?_⟩
  refine List.ext_getElem (by simp [table, vec]) fun k _ hk => ?_
  have hlt : k < n := by simpa [vec] using hk
  simp [table, vec, Fin.modNat, Nat.mod_eq_of_lt hlt]

theorem unsqueeze?_column (f : Fin n → γ) :
    (vec (List.ofFn f)).unsqueeze? [1] = some (table fun i (_ : Fin 1) => f i) := by
  refine ofData?_eq_some_iff.mpr ⟨by simp [table], ?_⟩
  refine List.ext_getElem (by simp [table, vec]) fun k _ _ => ?_
  simp [table, vec, Fin.divNat]

theorem unsqueeze?_row_list (l : List γ) :
    (vec l).unsqueeze? [0] = some (table fun (_ : Fin 1) j => l.get j) := by
  have h := unsqueeze?_row l.get
  rwa [List.ofFn_get] at h

theorem unsqueeze?_column_list (l : List γ) :
    (vec l).unsqueeze? [1] = some (table fun i (_ : Fin 1) => l.get i) := by
  have h := unsqueeze?_column l.get
  rwa [List.ofFn_get] at h

theorem squeeze?_row (f : Fin 1 → Fin n → γ) :
    (table f).squeeze? [0] = some (vec (List.ofFn (f 0))) := by
  change ofData? [n] _ = _
  refine ofData?_eq_some_iff.mpr ⟨by simp [vec], List.ext_getElem? fun k => ?_⟩
  by_cases hk : k < n
  · have hget := getElem?_table (f := f) 0 ⟨k, hk⟩
    simpa [vec, hk] using hget.symm
  · rw [List.getElem?_eq_none (by simpa [vec] using hk),
      List.getElem?_eq_none (by simpa [table] using hk)]

theorem concat?_vec (l l' : List γ) : concat? 0 (vec l) (vec l') = some (vec (l ++ l')) := by
  change (if [l'.length] = [l'.length] then build? [l.length + l'.length] _ else none) = _
  refine (if_pos rfl).trans (build?_vec List.length_append.symm fun i hi => ?_)
  change (if i < l.length then (vec l).read? [i] else (vec l').read? [i - l.length]) = _
  rw [read?_vec, read?_vec, List.getElem?_append]

theorem sizes_vec : (vec l).sizes = [l.length] := rfl

theorem axis?_vec : (vec l).axis? 0 = some (0, l.length) := rfl

theorem sliceLength_inner (n : Nat) : Inferred.sliceLength n 1 (-1) 1 = n - 2 := by
  have hfirst : Inferred.sliceBound n 0 n 1 = max 0 (min (n : Int) 1) := rfl
  have hlast : Inferred.sliceBound n 0 n (-1) = max 0 (min (n : Int) (-1 + n)) := rfl
  simp only [Inferred.sliceLength, hfirst, hlast, Int.ediv_one, Int.zero_lt_one, if_true]
  split <;> omega

theorem slice?_inner (l : List γ) :
    (vec l).slice? 1 (-1) 1 0 = some (vec (l.drop 1).dropLast) := by
  simp only [slice?, axis?_vec, Option.bind_eq_bind, Option.bind_some, sizes_vec,
    List.set_cons_zero, sliceLength_inner, Int.one_ne_zero, if_false]
  refine build?_vec (by simp [Nat.sub_sub]) fun i hi => ?_
  rw [List.length_dropLast, List.length_drop] at hi
  have hplace : (Inferred.sliceBound l.length 0 l.length 1 + i * 1).toNat = 1 + i := by
    have hfirst : Inferred.sliceBound l.length 0 l.length 1 = max 0 (min (l.length : Int) 1) := rfl
    omega
  simp only [List.getElem?_cons_zero, Option.bind_some, List.set_cons_zero, Int.zero_lt_one,
    if_true, hplace, read?_vec]
  rw [List.getElem?_dropLast, List.length_drop, if_pos hi, List.getElem?_drop]

theorem resolveAxis_natCast (h : i < n) : resolveAxis i n = some i := by
  have hpos : ¬ (i : Int) < 0 := by omega
  simp [resolveAxis, hpos, h]

theorem gather?_vec {positions : List Nat} (h : ∀ i ∈ positions, i < l.length) :
    (vec l).gather? 0 (vec (positions.map Nat.cast)) = some (vec (entriesAt l positions)) := by
  simp only [gather?, axis?_vec, Option.bind_eq_bind, Option.bind_some, sizes_vec, List.take_zero,
    List.nil_append, List.drop_succ_cons, List.drop_zero, List.append_nil]
  refine build?_vec (by rw [List.length_map, length_entriesAt h]) fun i hi => ?_
  have hi : i < positions.length := (length_entriesAt h) ▸ hi
  rw [getElem?_entriesAt h, List.getElem?_eq_getElem hi]
  have hread : (vec (positions.map (Nat.cast : Nat → Int))).read? [i] =
      some (positions[i] : Int) := by
    rw [read?_vec, List.getElem?_map, List.getElem?_eq_getElem hi]
    rfl
  simp [hread, resolveAxis_natCast (h _ (List.getElem_mem hi)), read?_vec]

/-! ### Broadcasting -/

/-- One entry, stretched to whatever the other operand is. -/
def Spread (x : Grid γ) (c : γ) : Prop := x = scalar c ∨ x = vec [c]

theorem spread_scalar (c : γ) : (scalar c).Spread c := .inl rfl

theorem spread_vec (c : γ) : (vec [c]).Spread c := .inr rfl

theorem Spread.stretched? (h : x.Spread c) (hc : coords ≠ []) : x.stretched? coords = some c := by
  rcases h with rfl | rfl
  · rfl
  · have hcoords : broadcastCoordinates [1] coords = [0] := by
      rw [broadcastCoordinates, List.length_singleton, List.drop_length_sub_one hc]
      rfl
    exact (congrArg (vec [c]).read? hcoords).trans read?_vec

theorem stretched?_vec (hi : i < l.length) : (vec l).stretched? [i] = l[i]? := by
  rw [stretched?, sizes_vec, broadcastCoordinates_self (within_singleton_iff.mpr ⟨i, hi, rfl⟩),
    read?_vec]

theorem stretched?_table (i : Fin m) (j : Fin n) : (table f).stretched? [i, j] = some (f i j) := by
  have hwithin := within_pair_iff.mpr ⟨i, i.isLt, j, j.isLt, rfl⟩
  exact (congrArg (table f).read? (broadcastCoordinates_self hwithin)).trans (read?_table i j)

theorem stretched?_row (f : Fin 1 → Fin n → γ) (i : Nat) (j : Fin n) :
    (table f).stretched? [i, j] = some (f 0 j) := by
  have hcoords : broadcastCoordinates [1, n] [i, j] = [0, (j : Nat)] := by
    have hj : (if n = 1 then 0 else (j : Nat)) = j := by
      have := j.isLt
      split <;> omega
    simp [broadcastCoordinates, hj]
  exact (congrArg (table f).read? hcoords).trans (read?_table 0 j)

theorem stretched?_column (f : Fin m → Fin 1 → γ) (i : Fin m) (j : Nat) :
    (table f).stretched? [i, j] = some (f i 0) := by
  have hcoords : broadcastCoordinates [m, 1] [i, j] = [(i : Nat), 0] := by
    have hi : (if m = 1 then 0 else (i : Nat)) = i := by
      have := i.isLt
      split <;> omega
    simp [broadcastCoordinates, hi]
  exact (congrArg (table f).read? hcoords).trans (read?_table i 0)

theorem broadcastSize_one (n : Nat) : broadcastSize n 1 = some n := by
  unfold broadcastSize
  grind

theorem one_broadcastSize (n : Nat) : broadcastSize 1 n = some n := by
  unfold broadcastSize
  grind

theorem broadcastSize_self (n : Nat) : broadcastSize n n = some n := if_pos rfl

theorem broadcastSizes_singleton {a b : Nat} (h : broadcastSize a b = some n) :
    broadcastSizes [a] [b] = some [n] := by
  simp [broadcastSizes, alignRight, h]

theorem broadcastSizes_pair {a b a' b' : Nat} (h : broadcastSize a a' = some m)
    (h' : broadcastSize b b' = some n) : broadcastSizes [a, b] [a', b'] = some [m, n] := by
  simp [broadcastSizes, alignRight, h, h']

theorem Spread.broadcastSizes_vec (h : y.Spread c) : broadcastSizes [n] y.sizes = some [n] := by
  rcases h with rfl | rfl <;>
    simp [broadcastSizes, alignRight, scalar, vec, broadcastSize_one]

theorem Spread.broadcastSizes_table (h : y.Spread c) :
    broadcastSizes [m, n] y.sizes = some [m, n] := by
  rcases h with rfl | rfl <;>
    simp [broadcastSizes, alignRight, scalar, vec, broadcastSize_one]

/-- Two operands that broadcast to a table. -/
theorem zipWith?_table {op : γ → δ → Option ε} {y : Grid δ} {g : Fin m → Fin n → δ}
    {r : Fin m → Fin n → ε} (hsizes : broadcastSizes x.sizes y.sizes = some [m, n])
    (hx : ∀ (i : Fin m) (j : Fin n), x.stretched? [i, j] = some (f i j))
    (hy : ∀ (i : Fin m) (j : Fin n), y.stretched? [i, j] = some (g i j))
    (hop : ∀ i j, op (f i j) (g i j) = some (r i j)) : zipWith? op x y = some (table r) := by
  refine Option.bind_eq_some_iff.mpr ⟨[m, n], hsizes, build?_table fun i j => ?_⟩
  rw [hx, hy]
  exact hop i j

theorem zipWith?_table_spread {op : γ → δ → Option ε} {y : Grid δ} {d : δ}
    {r : Fin m → Fin n → ε} (hy : y.Spread d) (hop : ∀ i j, op (f i j) d = some (r i j)) :
    zipWith? op (table f) y = some (table r) :=
  zipWith?_table hy.broadcastSizes_table stretched?_table
    (fun _ _ => hy.stretched? (List.cons_ne_nil _ _)) hop

theorem zipWith?_vec {op : γ → δ → Option ε} {y : Grid δ} {r : List ε} (hlen : r.length = l.length)
    (hsizes : broadcastSizes [l.length] y.sizes = some [l.length])
    (h : ∀ i (hi : i < l.length), (y.stretched? [i]).bind (op l[i]) = r[i]?) :
    zipWith? op (vec l) y = some (vec r) := by
  refine Option.bind_eq_some_iff.mpr ⟨_, hsizes, build?_vec hlen.symm fun i hi => ?_⟩
  have hi : i < l.length := hlen ▸ hi
  rw [stretched?_vec hi, List.getElem?_eq_getElem hi]
  exact h i hi

theorem zipWith?_vec_spread {op : γ → δ → Option ε} {y : Grid δ} {d : δ} {β : Type} {as : List β}
    {f : β → γ} {h : β → ε} (hy : y.Spread d) (hop : ∀ a ∈ as, op (f a) d = some (h a)) :
    zipWith? op (vec (as.map f)) y = some (vec (as.map h)) := by
  refine zipWith?_vec (by simp) hy.broadcastSizes_vec fun i hi => ?_
  have hi : i < as.length := by simpa using hi
  rw [hy.stretched? (List.cons_ne_nil _ _), Option.bind_some, List.getElem_map,
    hop _ (List.getElem_mem hi), List.getElem?_map, List.getElem?_eq_getElem hi, Option.map_some]

theorem zipWith?_vec_vec {op : γ → δ → ε} {l' : List δ} (hlen : l'.length = l.length) :
    zipWith? (fun a b => some (op a b)) (vec l) (vec l') = some (vec (List.zipWith op l l')) := by
  refine zipWith?_vec (by simp [hlen]) ?_ fun i hi => ?_
  · rw [sizes_vec, hlen]
    exact broadcastSizes_singleton (broadcastSize_self _)
  · have hi' : i < l'.length := hlen ▸ hi
    rw [stretched?_vec hi', List.getElem?_zipWith]
    simp [hi, hi']

theorem zipWith?_scalar {op : γ → δ → Option ε} {d : δ} {e : ε} (h : op c d = some e) :
    zipWith? op (scalar c) (scalar d) = some (scalar e) := by
  refine zipWith?_eq_some_iff.mpr ⟨rfl, fun coords hc => ?_⟩
  cases hc
  exact h

/-! ### Selections and searches -/

theorem select?_vec {p : List Bool} {y' : Grid γ} (hx : x.Spread c) (hy : y'.Spread c') :
    select? (vec p) x y' = some (vec (p.map fun b => if b then c else c')) := by
  have hpairs : zipWith? (fun b c => some (b, c)) (vec (p.map id)) x =
      some (vec (p.map fun b => (b, c))) := zipWith?_vec_spread hx fun _ _ => rfl
  rw [List.map_id] at hpairs
  exact Option.bind_eq_some_iff.mpr ⟨_, hpairs, zipWith?_vec_spread hy fun b _ => rfl⟩

theorem select?_table {p : Fin m → Fin n → Bool} {y' : Grid γ} (hx : x.Spread c)
    (hy : y'.Spread c') :
    select? (table p) x y' = some (table fun i j => if p i j then c else c') := by
  have hpairs : zipWith? (fun b c => some (b, c)) (table p) x =
      some (table fun i j => (p i j, c)) := zipWith?_table_spread hx fun _ _ => rfl
  exact Option.bind_eq_some_iff.mpr ⟨_, hpairs, zipWith?_table_spread hy fun _ _ => rfl⟩

theorem range?_count (n : Nat) :
    range? 1 (n + 1) 1 = some (vec (List.ofFn fun i : Fin n => (i : Int) + 1)) := by
  have hnumbers : List.ofFn (fun i : Fin n => (i : Int) + 1) =
      (List.range n).map fun i : Nat => (i : Int) + 1 :=
    List.ext_getElem (by simp) fun i _ _ => by simp
  simp [hnumbers, range?, Int.add_comm]

theorem nonZero?_vec (isSet : γ → Bool) (l : List γ) : (vec l).nonZero? isSet =
    some (table fun (_ : Fin 1) j =>
      (((List.range l.length).filter fun i => (l[i]?).any isSet).get j : Int)) := by
  have hcount : entryCount [l.length] = l.length := Nat.mul_one _
  simp only [nonZero?, sizes_vec, hcount, List.length_singleton]
  refine build?_table fun i j => ?_
  obtain rfl := Subsingleton.elim i 0
  simp only [Fin.val_zero, List.getElem?_cons_succ, List.getElem?_cons_zero, Option.bind_eq_bind,
    Option.bind_some, List.getElem?_eq_getElem j.isLt]
  simp [coordinates, entryCount]
  rfl

/-- All entries in ascending order. -/
theorem topK?_vec [LinearOrder γ] (l : List γ) : ∃ found,
    (vec l).topK? 0 .smallest l.length = some found ∧
      ∃ s : List γ, found.map Prod.fst = vec s ∧ s.Pairwise (· ≤ ·) ∧ s.Perm l := by
  let entries := l.zipIdx.map fun p => (p.1, (p.2 : Int))
  have hentries : entries.map Prod.fst = l := by simp [entries, Function.comp_def]
  let found := ranked .smallest entries
  have hperm : (found.map Prod.fst).Perm l :=
    hentries ▸ (List.mergeSort_perm entries _).map Prod.fst
  have hlen : found.length = l.length := by simpa using hperm.length_eq
  refine ⟨vec found, ?_, found.map Prod.fst, ?_, ?_, hperm⟩
  · have hcount : (0 : Int) ≤ l.length ∧ (l.length : Int) ≤ l.length := by omega
    simp only [topK?, axis?_vec, Option.bind_eq_bind, Option.bind_some, if_pos hcount, sizes_vec,
      List.set_cons_zero, Int.toNat_natCast]
    refine build?_vec hlen.symm fun i hi => ?_
    have hread : ((List.range l.length).mapM fun c =>
        ((vec l).read? ([i].set 0 c)).bind fun a => pure (a, (c : Int))) = some entries := by
      refine mapM_eq_some_iff.mpr (List.ext_getElem (by simp [entries]) fun k hk _ => ?_)
      have hk : k < l.length := by simpa using hk
      simp [read?_vec, entries, hk]
    rw [hread]
    rfl
  · exact map_vec Prod.fst
  · have hsorted : found.Pairwise fun a b => decide (a.1 ≤ b.1) = true := by
      refine List.pairwise_mergeSort (fun a b c h h' => ?_) (fun a b => ?_) entries
      · exact decide_eq_true ((of_decide_eq_true h).trans (of_decide_eq_true h'))
      · simpa using le_total a.1 b.1
    exact List.pairwise_map.mpr (hsorted.imp of_decide_eq_true)

/-! ### Reductions -/

theorem sizes_table : (table f).sizes = [m, n] := rfl

theorem dropPositions_second (a b : δ) : dropPositions [1] [a, b] = [a] := rfl

theorem dropPositions_first (a b : δ) : dropPositions [0] [a, b] = [b] := rfl

theorem mem_filterMap_table {p : List Nat → Prop} [DecidablePred p] :
    c ∈ ((List.range (entryCount [m, n])).filterMap fun k =>
      if p (coordinates [m, n] k) then (table f).data[k]? else none) ↔
        ∃ (i : Fin m) (j : Fin n), p [i, j] ∧ f i j = c := by
  simp only [List.mem_filterMap, List.mem_range, coordinates_pair]
  constructor
  · rintro ⟨k, hk, h⟩
    obtain ⟨hp, h⟩ := Option.ite_none_right_eq_some.mp h
    have hk : k < m * n := by simpa [entryCount] using hk
    have hn : 0 < n := Nat.pos_of_ne_zero (by rintro rfl; simp at hk)
    refine ⟨⟨k / n, Nat.div_lt_of_lt_mul (Nat.mul_comm m n ▸ hk)⟩, ⟨k % n, Nat.mod_lt k hn⟩, hp, ?_⟩
    have hget := getElem?_table (f := f) ⟨k / n, Nat.div_lt_of_lt_mul (Nat.mul_comm m n ▸ hk)⟩
      ⟨k % n, Nat.mod_lt k hn⟩
    rw [Nat.div_add_mod', h] at hget
    exact (Option.some.inj hget).symm
  · rintro ⟨i, j, hp, rfl⟩
    have hj := j.isLt
    have hdiv : (i * n + j : Nat) / n = i := by
      rw [Nat.mul_comm, Nat.mul_add_div (by omega), Nat.div_eq_of_lt hj, Nat.add_zero]
    have hmod : (i * n + j : Nat) % n = j := by
      rw [Nat.mul_comm, Nat.mul_add_mod, Nat.mod_eq_of_lt hj]
    refine ⟨i * n + j, ?_, ?_⟩
    · have := Nat.mul_le_mul_right n i.isLt
      rw [Nat.succ_mul] at this
      simp only [entryCount, Nat.mul_one]
      omega
    · rw [hdiv, hmod, if_pos hp, getElem?_table]

theorem reduce?_rows {reduce : List γ → Option γ} {g : Fin m → γ}
    (h : ∀ i l, (∀ c, c ∈ l ↔ ∃ j, f i j = c) → reduce l = some (g i)) :
    (table f).reduce? reduce [1] false = some (vec (List.ofFn g)) := by
  have hpositions : [(1 : Int)].mapM (fun axis => resolveAxis axis [m, n].length) = some [1] := rfl
  simp only [reduce?, sizes_table, hpositions, Option.bind_eq_bind, Option.bind_some,
    Bool.false_eq_true, if_false, dropPositions_second]
  refine build?_vec (by simp) fun i hi => ?_
  have hi : i < m := by simpa using hi
  rw [List.getElem?_ofFn, dif_pos hi]
  refine h ⟨i, hi⟩ _ fun c =>
    (mem_filterMap_table (p := fun coords => dropPositions [1] coords = [i])).trans ?_
  constructor
  · rintro ⟨i', j, hi', hc⟩
    obtain rfl : i' = ⟨i, hi⟩ := Fin.ext (List.cons.inj hi').1
    exact ⟨j, hc⟩
  · rintro ⟨j, hc⟩
    exact ⟨⟨i, hi⟩, j, rfl, hc⟩

theorem reduce?_columns {reduce : List γ → Option γ} {g : Fin n → γ}
    (h : ∀ j l, (∀ c, c ∈ l ↔ ∃ i, f i j = c) → reduce l = some (g j)) :
    (table f).reduce? reduce [0] false = some (vec (List.ofFn g)) := by
  have hpositions : [(0 : Int)].mapM (fun axis => resolveAxis axis [m, n].length) = some [0] := rfl
  simp only [reduce?, sizes_table, hpositions, Option.bind_eq_bind, Option.bind_some,
    Bool.false_eq_true, if_false, dropPositions_first]
  refine build?_vec (by simp) fun j hj => ?_
  have hj : j < n := by simpa using hj
  rw [List.getElem?_ofFn, dif_pos hj]
  refine h ⟨j, hj⟩ _ fun c =>
    (mem_filterMap_table (p := fun coords => dropPositions [0] coords = [j])).trans ?_
  constructor
  · rintro ⟨i, j', hj', hc⟩
    obtain rfl : j' = ⟨j, hj⟩ := Fin.ext (List.cons.inj hj').1
    exact ⟨i, hc⟩
  · rintro ⟨i, hc⟩
    exact ⟨i, ⟨j, hj⟩, rfl, hc⟩

end Grid

end TensorGraph
