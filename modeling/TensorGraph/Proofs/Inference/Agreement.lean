import TensorGraph.Pass.ConstantFolding
import TensorGraph.Proofs.Inference.Folding
import TensorGraph.Proofs.Inference.Recorded

/-! # Folding follows inference

In exact arithmetic, whatever inference accepts on the specs of constants can be folded, and the
spec that is inferred is the spec of the constant that comes out. For a reshape this takes the
number of entries, which inference finds only if no product of sizes leaves the range of counts.
-/

namespace TensorGraph

variable {t u a b : Tensor} {sizes positions perm : List Nat} {target axes : List Int} {s : Spec}
variable {specialZero : Bool} {item axis : Int} {i n count rank : Nat}

theorem exists_mapM_of_ok {ε α γ δ : Type} {f : α → Option γ} {g : α → Except ε δ} {l : List α}
    {ys : List δ} (h : ∀ x ∈ l, ∀ y, g x = .ok y → ∃ z, f x = some z) (e : l.mapM g = .ok ys) :
    ∃ zs, l.mapM f = some zs := by
  induction l generalizing ys with
  | nil => exact ⟨[], rfl⟩
  | cons x l ih =>
    obtain ⟨hx, hl⟩ := List.forall_mem_cons.mp h
    rw [List.mapM_cons] at e ⊢
    obtain ⟨y, hy, e⟩ := bind_eq_ok_iff.mp e
    obtain ⟨rest, hrest, -⟩ := bind_eq_ok_iff.mp e
    obtain ⟨z, hz⟩ := hx y hy
    obtain ⟨zs, hzs⟩ := ih hl hrest
    exact ⟨z :: zs, Option.bind_eq_some_iff.mpr
      ⟨z, hz, Option.bind_eq_some_iff.mpr ⟨zs, hzs, rfl⟩⟩⟩

theorem elementCount?_spec (h : t.Counted) : t.spec.shape.elementCount? = some t.data.size := by
  have hsizes : (Shape.ofSizes t.sizes).sizes? = some t.sizes := by
    refine mapM_eq_some_iff.mpr ?_
    rw [List.map_map]
    rfl
  exact Option.bind_eq_some_iff.mpr ⟨t.sizes, hsizes, h⟩

namespace Inferred

/-! ### Arithmetic -/

theorem exists_broadcastSize {x y : Nat} {e : Extent}
    (h : (Extent.known x).broadcast (.known y) = .ok e) : ∃ z, broadcastSize x y = some z := by
  cases hz : broadcastSize x y with
  | some z => exact ⟨z, rfl⟩
  | none =>
    unfold broadcastSize at hz
    unfold Extent.broadcast at h
    grind

theorem exists_broadcastSizes {sizes sizes' : List Nat} {extents : List Extent}
    (h : Shape.broadcastExtents (sizes.map .known) (sizes'.map .known) = .ok extents) :
    ∃ joined, broadcastSizes sizes sizes' = some joined := by
  unfold Shape.broadcastExtents at h
  simp only [List.length_map, alignRight_map, List.zip_map, List.mapM_map] at h
  exact exists_mapM_of_ok (fun _ _ _ he => exists_broadcastSize he) h

theorem exists_zipWith? (f : Float → Float → Float) (h : arithmetic a.spec b.spec = .ok s) :
    ∃ t, a.zipWith? f b = some t := by
  obtain ⟨shape, hpaired, -⟩ := bind_eq_ok_iff.mp h
  obtain ⟨⟨⟩, helement, hbroadcast⟩ := bind_eq_ok_iff.mp hpaired
  have helement : a.elementType = b.elementType := eq_of_beq (require_eq_ok_iff.mp helement)
  unfold Inferred.broadcast at hbroadcast
  split at hbroadcast
  · rename_i joined hjoined
    cases hextents : Shape.broadcastExtents (a.sizes.map .known) (b.sizes.map .known) with
    | ok extents =>
      obtain ⟨sizes, hsizes⟩ := exists_broadcastSizes hextents
      unfold Tensor.zipWith?
      rw [if_pos helement, hsizes]
      exact ⟨_, rfl⟩
    | error e =>
      simp only [Tensor.spec, Shape.ofSizes, Shape.broadcast, hextents] at hjoined
      cases hjoined
  · cases hbroadcast

/-! ### Transposes -/

theorem exists_transpose? (h : transpose perm t.spec = .ok s) : ∃ u, t.transpose? perm = some u := by
  obtain ⟨⟨⟩, hperm, h⟩ := bind_eq_ok_iff.mp h
  obtain ⟨⟨⟩, hrank, -⟩ := bind_eq_ok_iff.mp h
  have hlength : (t.sizes.map Extent.known).length = perm.length :=
    eq_of_beq (require_eq_ok_iff.mp hrank)
  rw [List.length_map] at hlength
  exact ⟨_, Tensor.transpose?_eq_some_iff.mpr ⟨hlength.symm, require_eq_ok_iff.mp hperm, rfl⟩⟩

/-! ### Reshapes -/

theorem exists_targetSize? {e : Extent} (hitem : -1 ≤ item)
    (h : targetExtent (.ofSizes sizes) specialZero item i = .ok e) :
    ∃ n, targetSize? sizes specialZero item i = some n := by
  unfold targetExtent at h
  unfold targetSize?
  split
  · exact ⟨1, rfl⟩
  · rename_i hw
    rw [if_neg hw] at h
    split
    · rename_i hz
      rw [if_pos hz] at h
      simp only [Shape.ofSizes, List.getElem?_map] at h
      cases hsize : sizes[i]? with
      | some n => exact ⟨n, rfl⟩
      | none =>
        rw [hsize] at h
        cases h
    · exact ⟨item.toNat, if_pos (by omega)⟩

theorem exists_targetSizes? {extents : List Extent}
    (hitems : require (target.all (-1 ≤ ·)) (.reshapeTarget target) = .ok ())
    (hextents : target.zipIdx.mapM (fun (item, axis) =>
      targetExtent (.ofSizes sizes) specialZero item axis) = .ok extents) :
    ∃ literal, targetSizes? sizes target specialZero = some literal := by
  have hitems := List.all_eq_true.mp (require_eq_ok_iff.mp hitems)
  exact exists_mapM_of_ok (fun x hx e he => exists_targetSize?
    (of_decide_eq_true (hitems x.1 (List.fst_mem_of_mem_zipIdx hx))) he) hextents

theorem entryCount_fill {literal : List Nat} {size : Nat} (h : Literal target literal)
    (hone : target.count (-1) = 1) :
    entryCount (target.zipWith (fun item n => if item = -1 then size else n) literal) =
      size * entryCount literal := by
  induction h with
  | nil => cases hone
  | @cons item n target literal hitem hrest ih =>
    rw [List.zipWith_cons_cons, entryCount, entryCount]
    by_cases hw : item = -1
    · have hnot : -1 ∉ target := by
        rw [hw, List.count_cons_self] at hone
        exact List.count_eq_zero.mp (Nat.succ.inj hone)
      have hsame : target.zipWith (fun item n => if item = -1 then size else n) literal =
          literal := by
        clear ih hone
        induction hrest with
        | nil => rfl
        | cons _ _ ih =>
          obtain ⟨hne, hnot⟩ := not_or.mp (mt List.mem_cons.mpr hnot)
          rw [List.zipWith_cons_cons, if_neg (Ne.symm hne), ih hnot]
      rw [if_pos hw, hsame, hitem.2 hw, Nat.one_mul]
    · rw [if_neg hw, ih (by rwa [List.count_cons_of_ne hw] at hone), Nat.mul_left_comm]

theorem entryCount_resolveTarget?
    (h : resolveTarget? sizes target specialZero = some positions) :
    entryCount positions = entryCount sizes := by
  obtain ⟨literal, hmapM, ⟨-, rfl, hsame⟩ | ⟨hone, -, hmod, rfl⟩⟩ := resolveTarget?_eq_some h
  · exact hsame
  · rw [entryCount_fill (literal_of_mapM hmapM) hone]
    exact Nat.div_mul_cancel (Nat.dvd_of_mod_eq_zero hmod)

section Literal

variable {literal : List Nat} (hmapM : target.zipIdx.mapM
  (fun (item, axis) => targetSize? sizes specialZero item axis) = some literal)
include hmapM

theorem resolveTarget?_closed (hnot : -1 ∉ target) (hsame : entryCount literal = entryCount sizes) :
    resolveTarget? sizes target specialZero = some literal := by
  refine Option.bind_eq_some_iff.mpr ⟨literal, hmapM, ?_⟩
  rw [List.count_eq_zero.mpr hnot]
  exact if_pos hsame

theorem resolveTarget?_open (hone : target.count (-1) = 1) (hpos : entryCount literal ≠ 0)
    (hmod : entryCount sizes % entryCount literal = 0) :
    resolveTarget? sizes target specialZero = some (target.zipWith (fun item n =>
      if item = -1 then entryCount sizes / entryCount literal else n) literal) := by
  refine Option.bind_eq_some_iff.mpr ⟨literal, hmapM, ?_⟩
  have hfits : ¬ (entryCount literal = 0 ∨ entryCount sizes % entryCount literal ≠ 0) := by
    rw [not_or, not_not]
    exact ⟨hpos, hmod⟩
  simp only [hone, if_neg hfits, List.zip, List.map_zipWith]

end Literal

theorem known_of_literalCount {literal : List Nat} {known : Option Nat}
    (hliteral : Literal target literal)
    (h : literalCount target (target.zipWith itemExtent literal) = .ok known) :
    known = some (entryCount literal) := by
  rw [hliteral.literalCount] at h
  cases hproduct : boundedProduct literal with
  | none =>
    rw [hproduct] at h
    cases h
  | some product =>
    rw [hproduct] at h
    rw [← Except.ok.inj h, boundedProduct_eq_some hproduct]

theorem exists_resolveTarget? (ht : t.Counted)
    (h : reshape target specialZero t.spec = .ok s) : ∃ positions,
      resolveTarget? t.sizes target specialZero = some positions ∧
        s = ⟨t.elementType, .ofSizes positions⟩ := by
  obtain ⟨⟨⟩, hone, h⟩ := bind_eq_ok_iff.mp h
  obtain ⟨⟨⟩, hitems, h⟩ := bind_eq_ok_iff.mp h
  obtain ⟨extents, hextents, h⟩ := bind_eq_ok_iff.mp h
  have hone := of_decide_eq_true (require_eq_ok_iff.mp hone)
  obtain ⟨literal, hmapM⟩ := exists_targetSizes? hitems hextents
  have hliteral := literal_of_mapM hmapM
  obtain rfl : target.zipWith itemExtent literal = extents :=
    Except.ok.inj ((targetExtents_ofSizes hmapM).symm.trans hextents)
  obtain ⟨known, hknown, h⟩ := bind_eq_ok_iff.mp h
  obtain rfl := known_of_literalCount hliteral hknown
  rw [elementCount?_spec ht, t.size_data] at h
  dsimp only at h
  split at h
  · rename_i hmem
    obtain ⟨⟨⟩, hfits, h⟩ := bind_eq_ok_iff.mp h
    have hfits := require_eq_ok_iff.mp hfits
    rw [Bool.and_eq_true, bne_iff_ne, beq_iff_eq] at hfits
    have hcount : target.count (-1) = 1 := le_antisymm hone (List.count_pos_iff.mpr hmem)
    rw [sized_fill hliteral] at h
    exact ⟨_, resolveTarget?_open hmapM hcount hfits.1 hfits.2, (Except.ok.inj h).symm⟩
  · rename_i hnot
    obtain ⟨⟨⟩, hsame, h⟩ := bind_eq_ok_iff.mp h
    have hsame := eq_of_beq (require_eq_ok_iff.mp hsame)
    rw [sized_of_not_mem hliteral hnot] at h
    exact ⟨_, resolveTarget?_closed hmapM hnot hsame, (Except.ok.inj h).symm⟩

theorem exists_reshape? (ht : t.Counted) (h : reshape target specialZero t.spec = .ok s) :
    ∃ u, t.reshape? target specialZero = some u ∧ s = u.spec := by
  obtain ⟨positions, hpositions, hs⟩ := exists_resolveTarget? ht h
  have hsize : t.data.size = entryCount positions := by
    rw [t.size_data, entryCount_resolveTarget? hpositions]
  exact ⟨⟨t.elementType, positions, t.data, hsize⟩,
    Tensor.reshape?_eq_some_iff.mpr ⟨hpositions, rfl, rfl⟩, hs⟩

/-! ### Removed axes -/

theorem filter_dropPositions (h : ∀ i ∈ positions, sizes[i]? = some 1) :
    (dropPositions positions sizes).filter (· ≠ 1) = sizes.filter (· ≠ 1) := by
  have hdrop : ∀ (l : List Nat) (k : Nat), (∀ x ∈ l.zipIdx k, x.2 ∈ positions → x.1 = 1) →
      ((l.zipIdx k).filterMap fun x => if x.2 ∈ positions then none else some x.1).filter (· ≠ 1) =
        l.filter (· ≠ 1) := by
    intro l
    induction l with
    | nil => exact fun _ _ => rfl
    | cons n l ih =>
      intro k hone
      obtain ⟨hn, hl⟩ := List.forall_mem_cons.mp hone
      rw [List.zipIdx_cons, List.filterMap_cons]
      by_cases hk : k ∈ positions
      · simp only [hk, if_true]
        rw [ih (k + 1) hl, List.filter_cons_of_neg (by simpa using hn hk)]
      · simp only [hk, if_false, List.filter_cons]
        rw [ih (k + 1) hl]
  refine hdrop sizes 0 fun x hx hmem => ?_
  have hget := List.mem_zipIdx_iff_getElem?.mp hx
  rw [h x.2 hmem] at hget
  exact (Option.some.inj hget).symm

theorem getElem?_of_squeezePositions? (h : squeezePositions? sizes axes = some positions) :
    ∀ i ∈ positions, sizes[i]? = some 1 := by
  intro i hi
  unfold squeezePositions? at h
  split at h
  · obtain rfl := Option.some.inj h
    exact eq_of_beq (List.mem_filter.mp hi).2
  · have hmem := List.mem_map_of_mem (f := some) hi
    rw [← mapM_eq_some_iff.mp h] at hmem
    obtain ⟨axis, -, haxis⟩ := List.mem_map.mp hmem
    obtain ⟨j, -, hj⟩ := Option.bind_eq_some_iff.mp haxis
    split at hj
    · rename_i hone
      obtain rfl := Option.some.inj hj
      exact hone
    · cases hj

theorem exists_squeezeAxis (h : squeezeAxis (.ofSizes sizes) (sizes.map .known) axis = .ok n) :
    ∃ i, (do
      let i ← resolveAxis axis sizes.length
      if sizes[i]? = some 1 then some i else none) = some i := by
  obtain ⟨i, hi, h⟩ := bind_eq_ok_iff.mp h
  obtain ⟨⟨⟩, hone, -⟩ := bind_eq_ok_iff.mp h
  have hresolve : resolveAxis axis sizes.length = some i := by
    unfold axisOf at hi
    rw [List.length_map] at hi
    cases hr : resolveAxis axis sizes.length with
    | some j =>
      rw [hr] at hi
      exact congrArg some (Except.ok.inj hi)
    | none =>
      rw [hr] at hi
      cases hi
  have hone := require_eq_ok_iff.mp hone
  refine ⟨i, Option.bind_eq_some_iff.mpr ⟨i, hresolve, if_pos ?_⟩⟩
  rw [List.getElem?_map] at hone
  cases hsize : sizes[i]? with
  | some m => simpa [hsize] using hone
  | none => simp [hsize] at hone

theorem exists_squeeze? (h : squeeze axes t.spec = .ok s) : ∃ u, t.squeeze? axes = some u := by
  obtain ⟨positions, hpositions⟩ : ∃ positions, squeezePositions? t.sizes axes = some positions := by
    simp only [squeeze, Tensor.spec, Shape.ofSizes] at h
    unfold squeezePositions?
    split at h
    · rename_i hempty
      exact ⟨_, if_pos hempty⟩
    · rename_i hsome
      obtain ⟨found, hfound, -⟩ := bind_eq_ok_iff.mp h
      rw [if_neg hsome]
      exact exists_mapM_of_ok (fun _ _ _ he => exists_squeezeAxis he) hfound
  have hsize : t.data.size = entryCount (dropPositions positions t.sizes) := by
    rw [entryCount_congr (filter_dropPositions (getElem?_of_squeezePositions? hpositions)),
      t.size_data]
  exact ⟨⟨t.elementType, _, t.data, hsize⟩, Option.bind_eq_some_iff.mpr
    ⟨positions, hpositions, Tensor.withSizes?_eq_some_iff.mpr ⟨rfl, rfl, rfl⟩⟩⟩

/-! ### Added axes -/

theorem mapM_of_newAxes : ∀ {axes : List Int} {found result : List Nat},
    newAxes rank found axes = .ok result → found.Nodup →
    ∃ positions, axes.mapM (fun axis => resolveAxis axis rank) = some positions ∧
      result = positions.reverse ++ found ∧ result.Nodup
  | [], found, result, h, hnodup => by
    obtain rfl := Except.ok.inj h
    exact ⟨[], rfl, rfl, hnodup⟩
  | axis :: axes, found, result, h, hnodup => by
    obtain ⟨i, hi, h⟩ := bind_eq_ok_iff.mp h
    obtain ⟨⟨⟩, hnew, h⟩ := bind_eq_ok_iff.mp h
    have hnew := of_decide_eq_true (require_eq_ok_iff.mp hnew)
    obtain ⟨positions, hpositions, rfl, hresult⟩ :=
      mapM_of_newAxes h (List.nodup_cons.mpr ⟨hnew, hnodup⟩)
    refine ⟨i :: positions, ?_, by simp, hresult⟩
    have hresolve : resolveAxis axis rank = some i := by
      cases hr : resolveAxis axis rank with
      | some j =>
        rw [hr] at hi
        exact congrArg some (Except.ok.inj hi)
      | none =>
        rw [hr] at hi
        cases hi
    rw [List.mapM_cons, hresolve, hpositions]
    rfl

theorem resolveAxis_lt (h : resolveAxis axis rank = some i) : i < rank := by
  unfold resolveAxis at h
  grind

theorem count_new (hnodup : positions.Nodup) (hlt : ∀ i ∈ positions, i < rank) :
    ((List.range rank).map fun i => decide (i ∈ positions)).count false + positions.length =
      rank := by
  have hperm : ((List.range rank).filter (· ∈ positions)).Perm positions := by
    refine (List.perm_ext_iff_of_nodup (List.nodup_range.filter _) hnodup).mpr fun i => ?_
    simp only [List.mem_filter, List.mem_range, decide_eq_true_eq]
    exact ⟨And.right, fun hi => ⟨hlt i hi, hi⟩⟩
  have hsplit := List.length_eq_countP_add_countP (fun i => decide (i ∈ positions))
    (l := List.range rank)
  rw [List.length_range, List.countP_eq_length_filter, hperm.length_eq] at hsplit
  have hcount : ((List.range rank).map fun i => decide (i ∈ positions)).count false =
      (List.range rank).countP fun i => ¬ (decide (i ∈ positions)) = true := by
    rw [List.count, List.countP_map]
    refine List.countP_congr fun i _ => ?_
    simp
  omega

theorem exists_interleave {flags : List Bool} (h : flags.count false = sizes.length) :
    ∃ out, interleave 1 flags sizes = some out ∧
      out.filter (· ≠ 1) = sizes.filter (· ≠ 1) := by
  induction flags generalizing sizes with
  | nil =>
    obtain rfl := List.length_eq_zero_iff.mp h.symm
    exact ⟨[], rfl, rfl⟩
  | cons flag flags ih =>
    cases flag with
    | true =>
      obtain ⟨out, hout, hsame⟩ := ih (by simpa using h)
      refine ⟨1 :: out, congrArg (Option.map _) hout, ?_⟩
      rw [List.filter_cons_of_neg (by simp), hsame]
    | false =>
      cases sizes with
      | nil => simp at h
      | cons n sizes =>
        obtain ⟨out, hout, hsame⟩ := ih (by simpa using h)
        refine ⟨n :: out, congrArg (Option.map _) hout, ?_⟩
        rw [List.filter_cons, List.filter_cons, hsame]

/-- New axes have length one, and all others stay. -/
theorem exists_unsqueezed
    (h : unsqueezePositions? (sizes.length + axes.length) axes = some positions) :
    ∃ out, interleave 1 ((List.range (sizes.length + axes.length)).map (· ∈ positions)) sizes =
      some out ∧ out.filter (· ≠ 1) = sizes.filter (· ≠ 1) := by
  obtain ⟨found, hfound, h⟩ := Option.bind_eq_some_iff.mp h
  obtain ⟨hnodup, h⟩ := Option.ite_none_right_eq_some.mp h
  obtain rfl := Option.some.inj h
  have hmap := mapM_eq_some_iff.mp hfound
  have hlength : found.length = axes.length := by
    simpa using (congrArg List.length hmap).symm
  have hlt : ∀ i ∈ found, i < sizes.length + axes.length := by
    intro i hi
    have hmem := List.mem_map_of_mem (f := some) hi
    rw [← hmap] at hmem
    obtain ⟨axis, -, haxis⟩ := List.mem_map.mp hmem
    exact resolveAxis_lt haxis
  have hcount := count_new hnodup hlt
  rw [hlength] at hcount
  exact exists_interleave (Nat.add_right_cancel hcount)

theorem exists_unsqueeze? (h : unsqueeze axes t.spec = .ok s) :
    ∃ u, t.unsqueeze? axes = some u := by
  simp only [unsqueeze, Tensor.spec, Shape.ofSizes, List.length_map] at h
  obtain ⟨found, hfound, -⟩ := bind_eq_ok_iff.mp h
  obtain ⟨positions, hpositions, rfl, hnodup⟩ := mapM_of_newAxes hfound .nil
  rw [List.append_nil, List.nodup_reverse] at hnodup
  have hnew : unsqueezePositions? (t.sizes.length + axes.length) axes = some positions :=
    Option.bind_eq_some_iff.mpr ⟨positions, hpositions, if_pos hnodup⟩
  obtain ⟨out, hout, hsame⟩ := exists_unsqueezed hnew
  exact ⟨⟨t.elementType, out, t.data, t.size_data.trans (entryCount_congr hsame).symm⟩,
    Option.bind_eq_some_iff.mpr ⟨positions, hnew, Option.bind_eq_some_iff.mpr
      ⟨out, hout, Tensor.withSizes?_eq_some_iff.mpr ⟨rfl, rfl, rfl⟩⟩⟩⟩

end Inferred

/-! ### All operations -/

variable {p : Primitive} {operands : List Tensor} {specs : List Spec}

open CapabilityTable

/-- Where inference succeeds on the specs of constants, the operation can be folded. -/
theorem Primitive.exists_fold? (hp : p.kind ∈ ConstantFolding.foldable)
    (hcounted : ∀ t ∈ operands, t.Counted)
    (h : standard.infer (.primitive p) (operands.map Tensor.spec) = .ok specs) :
    ∃ c, p.fold? operands = some c ∧ specs = [c.spec] := by
  have harithmetic (f : Float → Float → Float) (hp : p ∈ [.add, .subtract, .multiply])
      (hfold : ∀ a b, p.fold? [a, b] = a.zipWith? f b) :
      ∃ c, p.fold? operands = some c ∧ specs = [c.spec] := by
    obtain ⟨x, y, s, hgiven, hs, rfl⟩ := (infer_arithmetic_iff hp).mp h
    obtain ⟨a, rest, rfl, rfl, hrest⟩ := List.map_eq_cons_iff.mp hgiven
    obtain ⟨b, rfl, rfl⟩ := List.map_eq_singleton_iff.mp hrest
    obtain ⟨c, hc⟩ := Inferred.exists_zipWith? f hs
    obtain rfl := Except.ok.inj (hs.symm.trans (Inferred.arithmetic_spec hc))
    exact ⟨c, (hfold a b).trans hc, rfl⟩
  have hfirst {rule : Primitive → Option (Spec → Inferred Spec)} {f : Spec → Inferred Spec}
      (hc : Capability.standard p.kind = ⟨.exactly 1, Rule.ofFirst rule⟩) (hf : rule p = some f)
      (hfold : ∀ t s, t.Counted → f t.spec = .ok s → ∃ c, p.fold? [t] = some c ∧ s = c.spec) :
      ∃ c, p.fold? operands = some c ∧ specs = [c.spec] := by
    obtain ⟨x, s, hgiven, hs, rfl⟩ := (infer_first_iff hc hf).mp h
    obtain ⟨t, rfl, rfl⟩ := List.map_eq_singleton_iff.mp hgiven
    obtain ⟨c, hc, rfl⟩ := hfold t s (hcounted t List.mem_cons_self) hs
    exact ⟨c, hc, rfl⟩
  cases p with
  | add => exact harithmetic _ (by simp) fun _ _ => rfl
  | subtract => exact harithmetic _ (by simp) fun _ _ => rfl
  | multiply => exact harithmetic _ (by simp) fun _ _ => rfl
  | reshape target specialZero =>
    exact hfirst rfl rfl fun t s ht hs => Inferred.exists_reshape? ht hs
  | transpose perm =>
    refine hfirst rfl rfl fun t s _ hs => ?_
    obtain ⟨c, hc⟩ := Inferred.exists_transpose? hs
    exact ⟨c, hc, Except.ok.inj (hs.symm.trans (Inferred.transpose_spec hc))⟩
  | squeeze axes =>
    refine hfirst rfl rfl fun t s _ hs => ?_
    obtain ⟨c, hc⟩ := Inferred.exists_squeeze? hs
    exact ⟨c, hc, Except.ok.inj (hs.symm.trans (Inferred.squeeze_spec hc))⟩
  | unsqueeze axes =>
    refine hfirst rfl rfl fun t s _ hs => ?_
    obtain ⟨c, hc⟩ := Inferred.exists_unsqueeze? hs
    exact ⟨c, hc, Except.ok.inj (hs.symm.trans (Inferred.unsqueeze_spec hc))⟩
  | convert elementType =>
    exact hfirst rfl rfl fun t s _ hs => ⟨t.convert elementType, rfl, (Except.ok.inj hs).symm⟩
  | _ => simp [Primitive.kind, ConstantFolding.foldable] at hp

end TensorGraph
