import TensorGraph.Proofs.Exact.Arrays
import TensorGraph.Proofs.Pass.Knowledge

/-! # Values of the lowering of Unique

Over exact entries the lowered node computes the distinct entries of its flattened input in the
order of their first occurrences, and the place of every entry among them.
-/

namespace TensorGraph.UniqueLowering

open Grid

variable {α : Type} [LinearOrder α] {ρ : Float → α}

namespace Lowered

variable {p : Primitive} {ds rest : List (Grid (Cell α))} {d x y z : Grid (Cell α)}
variable {l u s : List (Cell α)} {c c' : Cell α} {m n : Nat} {t indexType : ElementType}

/-! ### Single steps -/

theorem step_of_numeric (h : numeric ρ p ds = some (d :: rest)) :
    step (numeric ρ) p ds = some d := Option.bind_eq_some_iff.mpr ⟨_, h, rfl⟩

theorem step_of_bind {r : Option (Grid (Cell α))} (hr : r = some d)
    (h : numeric ρ p ds = r >>= fun z => pure [z]) : step (numeric ρ) p ds = some d := by
  subst hr
  exact step_of_numeric h

theorem constant_singleton (t : ElementType) (v : Float) :
    constant (numeric ρ) (.splat t [1] v) = some (vec [Cell.read ρ t (t.cast v)]) := rfl

theorem constant_scalar (t : ElementType) (v : Float) :
    constant (numeric ρ) (.scalar t v) = some (scalar (Cell.read ρ t (t.cast v))) := rfl

theorem lengthOf_vec (l : List (Cell α)) :
    lengthOf (numeric ρ) (vec l) = some (scalar (.number l.length)) := rfl

theorem step_concat (l l' : List (Cell α)) :
    step (numeric ρ) (.concat 0) [vec l, vec l'] = some (vec (l ++ l')) := by
  refine step_of_bind (concat?_vec l l') ?_
  simp [numeric]

theorem step_gather {positions : List Nat} (h : ∀ i ∈ positions, i < l.length) :
    step (numeric ρ) (.gather 0) [vec l, vec (positions.map fun i : Nat => .number i)] =
      some (vec (entriesAt l positions)) := by
  have hindices := mapM?_map (g := Cell.number?) (h := (Cell.number : Int → Cell α))
    (fun _ => rfl) (vec (positions.map Nat.cast))
  rw [map_vec, List.map_map] at hindices
  refine step_of_bind (gather?_vec h) ?_
  exact bind_eq_of_eq_some hindices rfl

/-- All entries in ascending order. -/
theorem sorted_vec (l : List (Cell α)) : ∃ s : List (Cell α), s.Pairwise (· ≤ ·) ∧ s.Perm l ∧
    sorted (numeric ρ) (vec l) (scalar (.number l.length)) = some (vec s) := by
  obtain ⟨found, hfound, s, hs, hsorted, hperm⟩ := topK?_vec l
  have hrun : numeric ρ (.topK 0 .smallest .i32) [vec l, scalar (.number l.length)] =
      some [vec s, found.map fun p => .number p.2] := by
    rw [← hs]
    exact bind_eq_of_eq_some rfl (bind_eq_of_eq_some rfl (bind_eq_of_eq_some hfound rfl))
  exact ⟨s, hsorted, hperm, step_of_numeric hrun⟩

theorem step_select {b : Grid Bool} (h : select? b x y = some z) :
    step (numeric ρ) .select [b.map .truth, x, y] = some z := by
  have hcondition := mapM?_map (g := Cell.truth?) (h := (Cell.truth : Bool → Cell α))
    (fun _ => rfl) b
  exact step_of_bind h (bind_eq_of_eq_some hcondition rfl)

/-! ### Runs of equal entries -/

def marks (s : List (Cell α)) : List Bool :=
  (List.range s.length).map fun i => i = 0 ∨ s[i - 1]? ≠ s[i]?

theorem map_marks (hs : s ≠ []) (c : Cell α) :
    (marks s).map (Cell.truth : Bool → Cell α) = [.truth true] ++
      ((List.zipWith (fun a b => Cell.truth (a ≠ b)) (s ++ [c]) ([c] ++ s)).drop 1).dropLast := by
  have hlen : 0 < s.length := List.length_pos_iff.mpr hs
  refine List.ext_getElem ?_ fun i hi hi' => ?_
  · simp [marks]
    omega
  · have hi : i < s.length := by simpa [marks] using hi
    cases i with
    | zero => simp [marks]
    | succ i =>
      simp [marks, hi, Nat.lt_of_succ_lt hi]
      exact eq_comm

theorem step_nonZero (t : ElementType) (l : List (Cell α)) : ∃ z,
    step (numeric ρ) (.nonZero t) [vec l] = some z ∧ step (numeric ρ) (.squeeze [0]) [z] =
      some (vec (((List.range l.length).filter fun i => (l[i]?).any (Cell.isSet (ρ 0))).map
        fun i : Nat => .number i)) := by
  have hrun : numeric ρ (.nonZero t) [vec l] = _ :=
    bind_eq_of_eq_some (nonZero?_vec (Cell.isSet (ρ 0)) l) rfl
  refine ⟨_, step_of_numeric hrun, ?_⟩
  rw [map_table]
  refine step_of_bind ((squeeze?_row _).trans (congrArg (fun l => some (vec l)) ?_)) rfl
  exact List.ofFn_getElem_eq_map _ fun i : Nat => Cell.number (i : Int)

theorem isSet_ite {zero : α} (b : Bool) :
    (if b then Cell.number 1 else .number 0 : Cell α).isSet zero = b := by
  cases b <;> rfl

theorem runStarts_vec (hs : s ≠ []) :
    runStarts (numeric ρ) t (vec [.number 1]) (vec [.number 0]) (vec s) =
      some (vec ((startsOfRuns s).map fun i : Nat => .number i)) := by
  unfold runStarts
  refine bind_eq_of_eq_some (constant_singleton t 0) ?_
  refine bind_eq_of_eq_some (step_concat s _) ?_
  refine bind_eq_of_eq_some (step_concat _ s) ?_
  refine bind_eq_of_eq_some (step_of_bind (zipWith?_vec_vec (by simp)) rfl) ?_
  refine bind_eq_of_eq_some (step_of_bind (slice?_inner _) rfl) ?_
  refine bind_eq_of_eq_some (constant_singleton .boolean 1) ?_
  refine bind_eq_of_eq_some (step_concat _ _) ?_
  rw [Cell.read_true, ← map_marks hs, ← map_vec]
  refine bind_eq_of_eq_some (step_select (select?_vec (spread_vec _) (spread_vec _))) ?_
  obtain ⟨z, hz, hpositions⟩ := step_nonZero (ρ := ρ) .i64
    ((marks s).map fun b => if b then (.number 1 : Cell α) else .number 0)
  refine bind_eq_of_eq_some hz (hpositions.trans ?_)
  have hstarts : ((List.range (marks s).length).filter fun i =>
      (((marks s).map fun b => if b then (.number 1 : Cell α) else .number 0)[i]?).any
        (Cell.isSet (ρ 0))) = startsOfRuns s := by
    rw [startsOfRuns, marks, List.length_map, List.length_range]
    refine List.filter_congr fun i hi => ?_
    rw [List.getElem?_map, List.getElem?_map, List.getElem?_range (List.mem_range.mp hi)]
    exact isSet_ite _
  rw [List.length_map, hstarts]

/-! ### Places -/

/-- A hit counts its position from one, anything else lies beyond the last position. -/
def firstWeight (l : List (Cell α)) (c : Cell α) (j : Fin l.length) : Int :=
  (if l.get j = c then (1 : Int) else l.length + 1) * (j + 1)

theorem min?_firstWeight {q : List (Cell α)} (hc : c ∈ l)
    (hq : ∀ c', c' ∈ q ↔ ∃ j, Cell.number (firstWeight l c j) = c') :
    q.min? = some (.number (l.idxOf c + 1)) := by
  have hlt := List.idxOf_lt_length_of_mem hc
  obtain ⟨hat, hbefore⟩ := (idxOf_eq_iff hlt).mp rfl
  refine List.min?_eq_some_iff.mpr ⟨(hq _).mpr ⟨⟨l.idxOf c, hlt⟩, ?_⟩, fun c' hc' => ?_⟩
  · simp [firstWeight]
  · obtain ⟨j, rfl⟩ := (hq c').mp hc'
    rw [Cell.number_le_number, firstWeight]
    split
    · rename_i hhit
      have hle : l.idxOf c ≤ j := by
        by_contra hj
        refine hbefore j (Nat.lt_of_not_le hj) ?_
        rw [List.getElem?_eq_getElem j.isLt]
        exact congrArg some hhit
      omega
    · have hbeyond : ((l.length : Int) + 1) * 1 ≤ (l.length + 1) * ((j : Int) + 1) :=
        Int.mul_le_mul_of_nonneg_left (by omega) (by omega)
      omega

/-- A hit counts its place from one, and nothing else counts. -/
def placeWeight (u : List (Cell α)) (c : Cell α) (i : Fin u.length) : Int :=
  (if u.get i = c then (1 : Int) else 0) * (i + 1)

theorem max?_placeWeight {q : List (Cell α)} (hu : u.Nodup) (hc : c ∈ u)
    (hq : ∀ c', c' ∈ q ↔ ∃ i, Cell.number (placeWeight u c i) = c') :
    q.max? = some (.number (u.idxOf c + 1)) := by
  have hlt := List.idxOf_lt_length_of_mem hc
  refine List.max?_eq_some_iff.mpr ⟨(hq _).mpr ⟨⟨u.idxOf c, hlt⟩, ?_⟩, fun c' hc' => ?_⟩
  · simp [placeWeight]
  · obtain ⟨i, rfl⟩ := (hq c').mp hc'
    rw [Cell.number_le_number, placeWeight]
    split
    · rename_i hhit
      have hi : u.idxOf c = i := hhit ▸ hu.idxOf_getElem i i.isLt
      omega
    · omega

theorem step_count (n : Nat) : step (numeric ρ) .add [scalar (.number n), scalar (.number 1)] =
    some (scalar (.number ((n : Int) + 1))) :=
  step_of_bind (zipWith?_scalar rfl) rfl

theorem step_range (ht : t.isIndex = true) (n : Nat) :
    step (numeric ρ) (.range t)
      [scalar (.number 1), scalar (.number ((n : Int) + 1)), scalar (.number 1)] =
        some (vec (List.ofFn fun i : Fin n => .number ((i : Int) + 1))) := by
  have hinteger : t.isInteger = true := by cases t <;> first | rfl | cases ht
  have hrun : numeric ρ (.range t)
      [scalar (.number 1), scalar (.number ((n : Int) + 1)), scalar (.number 1)] =
        some [(vec (List.ofFn fun i : Fin n => (i : Int) + 1)).map .number] :=
    bind_eq_of_eq_some rfl (bind_eq_of_eq_some rfl (bind_eq_of_eq_some rfl
      (bind_eq_of_eq_some rfl (bind_eq_of_eq_some rfl (bind_eq_of_eq_some rfl
        (bind_eq_of_eq_some (range?_count n) (if_pos hinteger)))))))
  rw [step_of_numeric hrun, map_vec, List.map_ofFn]
  rfl

theorem firstPositions_vec (hu : ∀ c ∈ u, c ∈ l) :
    firstPositions (numeric ρ) (table fun (_ : Fin 1) j => l.get j) (vec u)
      (scalar (.number l.length)) (vec [.number 1]) (scalar (.number 1)) =
        some (vec (u.map fun c => .number (l.idxOf c))) := by
  unfold firstPositions
  refine bind_eq_of_eq_some (step_of_bind (unsqueeze?_column_list u) rfl) ?_
  have hequal : zipWith? (fun a b => some (.truth (a = b))) (table fun (_ : Fin 1) j => l.get j)
      (table fun i (_ : Fin 1) => u.get i) =
        some ((table fun i j => decide (l.get j = u.get i)).map (.truth : Bool → Cell α)) := by
    rw [map_table]
    exact zipWith?_table (broadcastSizes_pair (one_broadcastSize _) (broadcastSize_one _))
      (fun i j => stretched?_row _ i j) (fun i j => stretched?_column _ i j) fun _ _ => rfl
  refine bind_eq_of_eq_some (step_of_bind hequal rfl) ?_
  refine bind_eq_of_eq_some (step_count l.length) ?_
  refine bind_eq_of_eq_some (step_select (select?_table (spread_scalar _) (spread_scalar _))) ?_
  refine bind_eq_of_eq_some (step_range rfl l.length) ?_
  refine bind_eq_of_eq_some (step_of_bind (unsqueeze?_row _) rfl) ?_
  have hweighted : zipWith? (Cell.arithmetic (· * ·))
      (table fun i j => if decide (l.get j = u.get i) then Cell.number 1
        else .number (l.length + 1))
      (table fun (_ : Fin 1) (j : Fin l.length) => .number ((j : Nat) + 1)) =
        some (table fun i j => (.number (firstWeight l (u.get i) j) : Cell α)) := by
    refine zipWith?_table (broadcastSizes_pair (broadcastSize_one _) (broadcastSize_self _))
      stretched?_table (fun i j => stretched?_row _ i j) fun i j => ?_
    by_cases hhit : l.get j = u.get i
    · rw [firstWeight, if_pos hhit, if_pos (decide_eq_true hhit)]
      rfl
    · rw [firstWeight, if_neg hhit, decide_eq_false hhit]
      rfl
  refine bind_eq_of_eq_some (step_of_bind hweighted rfl) ?_
  have hleast := reduce?_rows (f := fun i j => (.number (firstWeight l (u.get i) j) : Cell α))
    fun i _ hq => min?_firstWeight (hu _ (List.get_mem u i)) hq
  refine bind_eq_of_eq_some (step_of_bind hleast rfl) ?_
  have hmap : List.ofFn (fun i => (.number (l.idxOf (u.get i) + 1) : Cell α)) =
      u.map fun c => .number (l.idxOf c + 1) :=
    List.ofFn_getElem_eq_map u fun c => Cell.number ((l.idxOf c : Int) + 1)
  rw [hmap]
  exact step_of_bind (zipWith?_vec_spread (spread_vec _) fun c _ => by simp [Cell.arithmetic]) rfl

theorem places_vec (ht : indexType.isIndex = true) (hu : u.Nodup) (hl : ∀ c ∈ l, c ∈ u) :
    places (numeric ρ) indexType (table fun (_ : Fin 1) j => l.get j) (vec u)
      (scalar (.number u.length)) (scalar (.number 1)) =
        some (vec (l.map fun c => .number (u.idxOf c))) := by
  unfold places
  refine bind_eq_of_eq_some (constant_singleton indexType 1) ?_
  refine bind_eq_of_eq_some (constant_singleton indexType 0) ?_
  rw [Cell.read_one ht, Cell.read_zero ht]
  refine bind_eq_of_eq_some (step_of_bind (unsqueeze?_column_list u) rfl) ?_
  have hequal : zipWith? (fun a b => some (.truth (a = b))) (table fun i (_ : Fin 1) => u.get i)
      (table fun (_ : Fin 1) j => l.get j) =
        some ((table fun i j => decide (u.get i = l.get j)).map (.truth : Bool → Cell α)) := by
    rw [map_table]
    exact zipWith?_table (broadcastSizes_pair (broadcastSize_one _) (one_broadcastSize _))
      (fun i j => stretched?_column _ i j) (fun i j => stretched?_row _ i j) fun _ _ => rfl
  refine bind_eq_of_eq_some (step_of_bind hequal rfl) ?_
  refine bind_eq_of_eq_some (step_count u.length) ?_
  refine bind_eq_of_eq_some (step_select (select?_table (spread_vec _) (spread_vec _))) ?_
  refine bind_eq_of_eq_some (step_range ht u.length) ?_
  refine bind_eq_of_eq_some (step_of_bind (unsqueeze?_column _) rfl) ?_
  have hweighted : zipWith? (Cell.arithmetic (· * ·))
      (table fun i j => if decide (u.get i = l.get j) then Cell.number 1 else .number 0)
      (table fun (i : Fin u.length) (_ : Fin 1) => .number ((i : Nat) + 1)) =
        some (table fun i j => (.number (placeWeight u (l.get j) i) : Cell α)) := by
    refine zipWith?_table (broadcastSizes_pair (broadcastSize_self _) (broadcastSize_one _))
      stretched?_table (fun i j => stretched?_column _ i j) fun i j => ?_
    by_cases hhit : u.get i = l.get j
    · rw [placeWeight, if_pos hhit, if_pos (decide_eq_true hhit)]
      rfl
    · rw [placeWeight, if_neg hhit, decide_eq_false hhit]
      rfl
  refine bind_eq_of_eq_some (step_of_bind hweighted rfl) ?_
  have hgreatest := reduce?_columns
    (f := fun i j => (.number (placeWeight u (l.get j) i) : Cell α))
    fun j _ hq => max?_placeWeight hu (hl _ (List.get_mem l j)) hq
  refine bind_eq_of_eq_some (step_of_bind hgreatest rfl) ?_
  have hmap : List.ofFn (fun j => (.number (u.idxOf (l.get j) + 1) : Cell α)) =
      l.map fun c => .number (u.idxOf c + 1) :=
    List.ofFn_getElem_eq_map l fun c => Cell.number ((u.idxOf c : Int) + 1)
  rw [hmap]
  exact step_of_bind (zipWith?_vec_spread (spread_vec _) fun c _ => by simp [Cell.arithmetic]) rfl

/-! ### All steps -/

theorem sorted_positions (hd : u.Nodup) (hmem : ∀ c, c ∈ u ↔ c ∈ l)
    (hs : s.Pairwise (· ≤ ·)) (hperm : s.Perm (u.map fun c => .number (l.idxOf c))) :
    s = (firstOccurrences l).map fun i : Nat => .number i := by
  refine List.Perm.eq_of_pairwise' hs ?_ (hperm.trans ?_)
  · refine List.pairwise_map.mpr (pairwise_firstOccurrences.imp fun h => ?_)
    exact Cell.number_le_number.mpr (by omega)
  · have h := (map_idxOf_perm hd hmem).map fun i : Nat => (.number i : Cell α)
    rwa [List.map_map] at h

theorem lower_vec (ht : indexType.isIndex = true) (hl : l ≠ []) :
    lower (numeric ρ) t indexType (vec l) =
      some (vec l.eraseDups, vec (l.map fun c => .number (l.eraseDups.idxOf c))) := by
  obtain ⟨s, hs, hperm, hsorted⟩ := sorted_vec (ρ := ρ) l
  have hdistinct := nodup_entriesAt_startsOfRuns hs
  have hmem (c : Cell α) : c ∈ entriesAt s (startsOfRuns s) ↔ c ∈ l :=
    mem_entriesAt_startsOfRuns.trans hperm.mem_iff
  generalize hd : entriesAt s (startsOfRuns s) = distinct at hdistinct hmem
  obtain ⟨s', hs', hperm', hsorted'⟩ :=
    sorted_vec (ρ := ρ) (distinct.map fun c => .number (l.idxOf c))
  obtain rfl := sorted_positions hdistinct hmem hs' hperm'
  have hne : s ≠ [] := fun h => hl (List.nil_perm.mp (h ▸ hperm))
  have hcount : (distinct.map fun c => (.number (l.idxOf c) : Cell α)).length =
      l.eraseDups.length := by
    rw [hperm'.symm.length_eq, List.length_map, ← entriesAt_firstOccurrences, length_entriesAt]
    intro i hi
    obtain ⟨c, hc, rfl⟩ := mem_firstOccurrences.mp hi
    exact List.idxOf_lt_length_of_mem hc
  unfold lower
  refine bind_eq_of_eq_some (constant_singleton .i32 1) ?_
  refine bind_eq_of_eq_some (constant_singleton .i32 0) ?_
  refine bind_eq_of_eq_some (constant_scalar .i32 1) ?_
  rw [Cell.read_one rfl, Cell.read_zero rfl]
  refine bind_eq_of_eq_some (lengthOf_vec l) ?_
  refine bind_eq_of_eq_some hsorted ?_
  refine bind_eq_of_eq_some (runStarts_vec hne) ?_
  refine bind_eq_of_eq_some (step_gather fun i hi => (mem_startsOfRuns.mp hi).1) ?_
  rw [hd]
  refine bind_eq_of_eq_some (step_of_bind (unsqueeze?_row_list l) rfl) ?_
  refine bind_eq_of_eq_some (firstPositions_vec fun c => (hmem c).mp) ?_
  refine bind_eq_of_eq_some (lengthOf_vec _) ?_
  refine bind_eq_of_eq_some hsorted' ?_
  refine bind_eq_of_eq_some (step_gather fun i hi => ?_) ?_
  · obtain ⟨c, hc, rfl⟩ := mem_firstOccurrences.mp hi
    exact List.idxOf_lt_length_of_mem hc
  rw [entriesAt_firstOccurrences, hcount]
  refine bind_eq_of_eq_some (places_vec ht (nodup_eraseDups l) fun c hc => ?_) rfl
  exact List.mem_eraseDups.mpr hc

theorem step_flat (x : Grid (Cell α)) :
    step (numeric ρ) (.reshape [-1] false) [x] = some (vec x.data) := by
  have hsizes : resolveTarget? x.sizes [-1] false = some [x.data.length] := by
    rw [x.length_data]
    simp [resolveTarget?, targetSizes?, targetSize?, entryCount, Nat.mod_one]
  have hflat : x.reshape? [-1] false = some (vec x.data) :=
    bind_eq_of_eq_some hsizes (ofData?_eq_some_iff.mpr ⟨rfl, rfl⟩)
  exact step_of_bind hflat rfl

theorem outputs_grid (ht : indexType.isIndex = true) (hx : x.data ≠ []) {single : Bool}
    (hsingle : single = true → x.data.length = 1) :
    outputs (numeric ρ) single t indexType x = some (vec x.data.eraseDups,
      vec (x.data.map fun c => .number (x.data.eraseDups.idxOf c))) := by
  refine bind_eq_of_eq_some (step_flat x) ?_
  cases single with
  | false => exact lower_vec ht hx
  | true =>
    obtain ⟨c, hc⟩ := List.length_eq_one_iff.mp (hsingle rfl)
    refine bind_eq_of_eq_some (constant_singleton indexType 0) ?_
    rw [Cell.read_zero ht, hc]
    simp [List.eraseDups_cons, List.idxOf_cons]

end Lowered

/-! ### The pass -/

variable {g : Graph} {root : NodeId} {m : Match} {plan : Plan Body} {v : Value} {spec : Spec}
variable {indexType : ElementType} {axis : Option Int}

theorem isIndex_of_infer {given outputs : List Spec} (h : CapabilityTable.standard.infer
    (.primitive (.unique indexType axis)) given = .ok outputs) : indexType.isIndex = true := by
  obtain ⟨s, -, hunique⟩ := CapabilityTable.infer_unique_iff.mp h
  obtain ⟨_, hindex, -⟩ := bind_eq_ok_iff.mp hunique
  exact Inferred.require_eq_ok_iff.mp hindex

omit [LinearOrder α] in
theorem length_data_of_flat {x : Grid (Cell α)} (hx : (Shape.ofSizes x.sizes).Refines spec.shape)
    (hone : (Shape.ranked [spec.shape.flatExtent]).elementCount? = some 1) :
    x.data.length = 1 := by
  have hcount : spec.shape.elementCount? = some 1 := by
    have hextent := eq_known_one hone
    unfold Shape.flatExtent at hextent
    split at hextent
    · rename_i hcount
      rw [hcount, Extent.known.inj hextent]
    · cases hextent
  rw [← hx.eq_of_elementCount? hcount] at hcount
  rw [x.length_data, ← elementCount?_ofSizes hcount]

/-- Wherever a node that inference accepts is lowered, the values put in the place of its first
output are the distinct entries of its input in the order of their first occurrences, and those
put in the place of the third are, for each entry of the input, its place among them. -/
theorem computes_distinct (ht : g.table = .standard) (hroot : ∃ specs, g.inferNode root = .ok specs)
    (hm : pass.matchAt? g root = some m) (e : pass.rewrite (g.pinned m.nodes) m = .ok plan) :
    ∃ n indexType axis v spec x y, g.node? root = some n ∧
      n.op = .primitive (.unique indexType axis) ∧ n.inputs = [v] ∧ g.spec? v = some spec ∧
      plan.replacements = replaced g (root.output 0) x ++ replaced g (root.output 2) y ∧
      ∀ (σ : Value → Option (Grid (Cell α))) input, σ v = some input → input.data ≠ [] →
        (Shape.ofSizes input.sizes).Refines spec.shape →
        plan.value? (numeric ρ) σ x = some (vec input.data.eraseDups) ∧
        plan.value? (numeric ρ) σ y =
          some (vec (input.data.map fun c => .number (input.data.eraseDups.idxOf c))) := by
  have hnode : (g.pinned m.nodes).node? = g.node? := Arena.node?_pinned
  obtain ⟨n, v, indexType, axis, spec, flat, x, y, hl, hreplacements, hreads⟩ :=
    reads_pass hnode (PatternPass.matchNode_of_matchAt? hm) e
  obtain ⟨specs, hspecs⟩ := hroot
  obtain ⟨n', given, hn', hgiven, hinfer, -⟩ := Arena.inferNode_eq_ok hspecs
  have hn : g.node? root = some n := hnode ▸ hl.node?_eq
  obtain rfl := Option.some.inj (hn.symm.trans hn')
  rw [Arena.infer, ht, hl.op_eq] at hinfer
  have hinput : n.inputs = [v] := by
    obtain ⟨s, rfl, -⟩ := CapabilityTable.infer_unique_iff.mp hinfer
    obtain ⟨w, hw, -⟩ := List.map_eq_singleton_iff.mp (Arena.specs_eq_ok_iff.mp hgiven)
    have hhead := hl.head?_eq
    rw [hw] at hhead ⊢
    rw [Option.some.inj hhead]
  have hreplaced (u : Value) (o : Operand) :
      replaced (g.pinned m.nodes) u o = replaced g u o := by
    rw [replaced, Arena.uses, Arena.output?, hnode]
    rfl
  rw [hreplaced, hreplaced] at hreplacements
  refine ⟨n, indexType, axis, v, spec, x, y, hn, hl.op_eq, hinput,
    Arena.spec?_of_nodes hnode ▸ hl.spec?_eq, hreplacements, fun σ input hσ hne hfits => ?_⟩
  refine hreads (.values _ (numeric ρ) σ) input _ _ hσ ?_
  refine Lowered.outputs_grid (isIndex_of_infer hinfer) hne fun hone => ?_
  rw [hl.flat_eq (PatternPass.table_pinned.trans ht)] at hone
  exact length_data_of_flat hfits (of_decide_eq_true hone)

open Simplification (distinct distinctMatch)
open Pipeline (first)

def listOfFour : Grid (Cell Int) :=
  ⟨[4], [.element 3, .element 1, .element 3, .element 2], rfl⟩

theorem computes_distinct_four : ∃ plan x y,
    pass.rewrite (distinct.pinned distinctMatch.nodes) distinctMatch = .ok plan ∧
      plan.replacements = [(first 1, x), (⟨⟨1, 0⟩, 2⟩, y)] ∧
      plan.value? (numeric fun _ => 0) (fun _ => some listOfFour) x =
        some (vec [.element 3, .element 1, .element 2]) ∧
      plan.value? (numeric fun _ => 0) (fun _ => some listOfFour) y =
        some (vec [.number 0, .number 1, .number 0, .number 2]) := by
  obtain ⟨plan, e⟩ : ∃ plan,
      pass.rewrite (distinct.pinned distinctMatch.nodes) distinctMatch = .ok plan := ⟨_, rfl⟩
  obtain ⟨n, indexType, axis, v, spec, x, y, hn, -, hin, hspec, hreplacements, hvalues⟩ :=
    @computes_distinct Int _ (fun _ => 0) distinct ⟨1, 0⟩ distinctMatch plan rfl ⟨_, rfl⟩ rfl e
  obtain rfl := Option.some.inj hn
  obtain rfl : first 0 = v := (List.cons.inj hin).1
  obtain rfl := Option.some.inj hspec
  obtain ⟨hx, hy⟩ := hvalues (fun _ => some listOfFour) listOfFour rfl (List.cons_ne_nil _ _) .rfl
  have hdistinct : listOfFour.data.eraseDups = [.element 3, .element 1, .element 2] := by
    decide +kernel
  have hplaces : (listOfFour.data.map fun c =>
      (.number (listOfFour.data.eraseDups.idxOf c) : Cell Int)) =
        [.number 0, .number 1, .number 0, .number 2] := by
    decide +kernel
  exact ⟨plan, x, y, e, hreplacements, hdistinct ▸ hx, hplaces ▸ hy⟩

end TensorGraph.UniqueLowering
