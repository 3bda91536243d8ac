import TensorGraph.Proofs.Inference.Monotonicity
import TensorGraph.Proofs.Tensor.Counting

/-! # Inference on folded operations

Where an operation can be folded, inference on the specs of the operands succeeds, and the tensor
that comes out refines the spec that is inferred.
-/

namespace TensorGraph

variable {t u a b : Tensor} {sizes positions : List Nat} {target axes : List Int}
variable {specialZero : Bool} {item axis : Int} {i n count : Nat}

theorem exists_bind_ok {ε α γ : Type} {x : Except ε α} {f : α → Except ε γ} {a : α}
    (h : x = .ok a) (hf : ∃ c, f a = .ok c) : ∃ c, (x >>= f) = .ok c :=
  hf.imp fun _ hc => bind_eq_ok_iff.mpr ⟨a, h, hc⟩

theorem mapM_eq_ok_of_some {ε α γ : Type} {f : α → Option γ} {g : α → Except ε γ}
    (h : ∀ x y, f x = some y → g x = .ok y) {l : List α} {ys : List γ}
    (e : l.mapM f = some ys) : l.mapM g = .ok ys := by
  induction l generalizing ys with
  | nil =>
    obtain rfl := Option.some.inj e
    rfl
  | cons x l ih =>
    rw [List.mapM_cons] at e ⊢
    obtain ⟨y, hy, e⟩ := Option.bind_eq_some_iff.mp e
    obtain ⟨rest, hrest, e⟩ := Option.bind_eq_some_iff.mp e
    obtain rfl := Option.some.inj e
    exact bind_eq_ok_iff.mpr ⟨y, h x y hy, bind_eq_ok_iff.mpr ⟨rest, ih hrest, rfl⟩⟩

/-! ### Known extents -/

/-- All extents are known, and these are the sizes. -/
abbrev Sized (sizes : List Nat) (extents : List Extent) : Prop :=
  List.Forall₂ (fun n e => e = Extent.known n) sizes extents

theorem sized_known (sizes : List Nat) : Sized sizes (sizes.map .known) :=
  List.forall₂_map_right_iff.mpr (List.forall₂_same.mpr fun _ _ => rfl)

theorem eq_of_sized {extents : List Extent} (h : Sized sizes extents) :
    extents = sizes.map .known := by
  induction h with
  | nil => rfl
  | cons he _ ih => rw [he, ih, List.map_cons]

theorem elementCount?_ofSizes (h : (Shape.ofSizes sizes).elementCount? = some count) :
    count = entryCount sizes := by
  obtain ⟨known, hknown, hcount⟩ := Option.bind_eq_some_iff.mp h
  obtain rfl : known = sizes := by
    have hmap : (sizes.map Extent.known).map Extent.size? = known.map some :=
      mapM_eq_some_iff.mp hknown
    rw [List.map_map] at hmap
    exact (List.map_injective_iff.mpr (Option.some_injective Nat) hmap).symm
  exact boundedProduct_eq_some hcount

theorem alignRight_map {α γ : Type} (f : α → γ) (unit : α) (rank : Nat) (l : List α) :
    alignRight (f unit) rank (l.map f) = (alignRight unit rank l).map f := by
  simp [alignRight]

namespace Inferred

/-! ### Arithmetic -/

theorem broadcast_known {x y z : Nat} (h : broadcastSize x y = some z) :
    (Extent.known x).broadcast (.known y) = .ok (.known z) := by
  unfold broadcastSize at h
  unfold Extent.broadcast
  grind

theorem broadcastSizes_known {sizes sizes' joined : List Nat}
    (h : broadcastSizes sizes sizes' = some joined) :
    Shape.broadcastExtents (sizes.map .known) (sizes'.map .known) = .ok (joined.map .known) := by
  unfold broadcastSizes at h
  unfold Shape.broadcastExtents
  simp only [List.length_map, alignRight_map, List.zip_map, List.mapM_map] at h ⊢
  refine mapM_eq_ok_of_some (f := fun x => (broadcastSize x.1 x.2).map .known) ?_ ?_
  · rintro ⟨x, y⟩ e he
    obtain ⟨z, hz, rfl⟩ := Option.map_eq_some_iff.mp he
    exact broadcast_known hz
  · rw [mapM_eq_some_iff] at h ⊢
    have hmap := congrArg (List.map (Option.map Extent.known)) h
    simpa [Function.comp_def] using hmap

theorem arithmetic_spec {f : Float → Float → Float} (h : a.zipWith? f b = some t) :
    arithmetic a.spec b.spec = .ok t.spec := by
  unfold Tensor.zipWith? at h
  split at h
  · rename_i helement
    obtain ⟨sizes, hsizes, rfl⟩ := Option.map_eq_some_iff.mp h
    refine bind_eq_ok_iff.mpr ⟨.ofSizes sizes, ?_, rfl⟩
    refine bind_eq_ok_iff.mpr ⟨(), require_eq_ok_iff.mpr (beq_iff_eq.mpr helement), ?_⟩
    simp only [Inferred.broadcast, Shape.broadcast, Tensor.spec, Shape.ofSizes,
      broadcastSizes_known hsizes]
    rfl
  · cases h

/-! ### Transposes -/

theorem transpose_spec {perm : List Nat} (h : t.transpose? perm = some u) :
    transpose perm t.spec = .ok u.spec := by
  obtain ⟨hlen, hperm, rfl⟩ := Tensor.transpose?_eq_some_iff.mp h
  have hextents : (perm.map fun axis => (t.sizes.map Extent.known).getD axis .unknown) =
      (perm.map fun axis => t.sizes.getD axis 0).map .known := by
    rw [List.map_map]
    refine List.map_congr_left fun axis ha => ?_
    have hlt : axis < t.sizes.length := hlen ▸ (isPermutation_iff.mp hperm).1 axis ha
    rw [Function.comp_apply, List.getD_eq_getElem _ _ hlt,
      List.getD_eq_getElem _ _ (by simpa using hlt), List.getElem_map]
  refine bind_eq_ok_iff.mpr ⟨(), require_eq_ok_iff.mpr hperm, ?_⟩
  refine bind_eq_ok_iff.mpr ⟨(), require_eq_ok_iff.mpr ?_, ?_⟩
  · rw [List.length_map]
    exact beq_iff_eq.mpr hlen.symm
  · rw [hextents]
    rfl

/-! ### Reshapes -/

/-- The extent that is inferred for an item with a size. -/
def itemExtent (item : Int) (n : Nat) : Extent := if item = -1 then .unknown else .known n

theorem targetExtent_ofSizes (h : targetSize? sizes specialZero item i = some n) :
    targetExtent (.ofSizes sizes) specialZero item i = .ok (itemExtent item n) := by
  unfold targetSize? at h
  unfold targetExtent itemExtent
  split at h
  · rename_i hw
    rw [if_pos hw, if_pos hw]
    rfl
  · rename_i hw
    rw [if_neg hw, if_neg hw]
    split at h
    · rename_i hz
      rw [if_pos hz]
      simp only [Shape.ofSizes, List.getElem?_map, h, Option.map_some]
      rfl
    · rename_i hz
      rw [if_neg hz]
      split at h
      · obtain rfl := Option.some.inj h
        rfl
      · cases h

theorem targetExtents_ofSizes : ∀ {target : List Int} {k : Nat} {literal : List Nat},
    (target.zipIdx k).mapM (fun (item, axis) => targetSize? sizes specialZero item axis) =
      some literal →
    (target.zipIdx k).mapM (fun (item, axis) =>
      targetExtent (.ofSizes sizes) specialZero item axis) = .ok (target.zipWith itemExtent literal)
  | [], _, _, h => by
    obtain rfl := Option.some.inj h
    rfl
  | item :: target, k, literal, h => by
    rw [List.zipIdx_cons, List.mapM_cons] at h ⊢
    obtain ⟨n, hn, h⟩ := Option.bind_eq_some_iff.mp h
    obtain ⟨rest, hrest, h⟩ := Option.bind_eq_some_iff.mp h
    obtain rfl := Option.some.inj h
    refine bind_eq_ok_iff.mpr ⟨_, targetExtent_ofSizes hn, ?_⟩
    exact bind_eq_ok_iff.mpr ⟨_, targetExtents_ofSizes hrest, rfl⟩

/-- Sizes for the items of a target; one that is inferred counts as one. -/
abbrev Literal (target : List Int) (literal : List Nat) : Prop :=
  List.Forall₂ (fun item n => -1 ≤ item ∧ (item = -1 → n = 1)) target literal

theorem literal_of_mapM : ∀ {target : List Int} {k : Nat} {literal : List Nat},
    (target.zipIdx k).mapM (fun (item, axis) => targetSize? sizes specialZero item axis) =
      some literal → Literal target literal
  | [], _, _, h => by
    obtain rfl := Option.some.inj h
    exact .nil
  | item :: target, k, literal, h => by
    rw [List.zipIdx_cons, List.mapM_cons] at h
    obtain ⟨n, hn, h⟩ := Option.bind_eq_some_iff.mp h
    obtain ⟨rest, hrest, h⟩ := Option.bind_eq_some_iff.mp h
    obtain rfl := Option.some.inj h
    refine .cons ?_ (literal_of_mapM hrest)
    unfold targetSize? at hn
    grind

theorem Literal.all_le {literal : List Nat} (h : Literal target literal) :
    target.all (-1 ≤ ·) = true := by
  induction h with
  | nil => rfl
  | cons hitem _ ih => rw [List.all_cons, ih, decide_eq_true hitem.1, Bool.and_self]

theorem Literal.literalSizes? {literal : List Nat} (h : Literal target literal) :
    literalSizes? target (target.zipWith itemExtent literal) =
      some (((target.zip literal).filter fun x => x.1 ≠ -1).map Prod.snd) := by
  unfold Inferred.literalSizes?
  induction h with
  | nil => rfl
  | @cons item n target literal hitem _ ih =>
    by_cases hw : item = -1
    · simp only [List.zipWith_cons_cons, List.zip_cons_cons, List.filter_cons, hw, ne_eq,
        not_true, decide_false, Bool.false_eq_true, if_false]
      exact ih
    · have hextent : (itemExtent item n).size? = some n := by simp [itemExtent, hw, Extent.size?]
      simp only [List.zipWith_cons_cons, List.zip_cons_cons, List.filter_cons, hw, ne_eq,
        not_false_eq_true, decide_true, if_true, List.mapM_cons, hextent, List.map_cons]
      exact Option.bind_eq_some_iff.mpr ⟨n, rfl, Option.bind_eq_some_iff.mpr ⟨_, ih, rfl⟩⟩

/-- The item that is inferred does not change a product. -/
theorem Literal.foldlM_bounded {literal : List Nat} (h : Literal target literal) {k : Nat}
    (hk : k < countLimit) :
    (((target.zip literal).filter fun x => x.1 ≠ -1).map Prod.snd).foldlM boundedMul k =
      literal.foldlM boundedMul k := by
  induction h generalizing k with
  | nil => rfl
  | @cons item n target literal hitem _ ih =>
    rw [List.zip_cons_cons, List.filter_cons, List.foldlM_cons]
    by_cases hw : item = -1
    · have hone : boundedMul k n = some k := by
        rw [hitem.2 hw, boundedMul, Nat.mul_one, if_pos hk]
      simp only [hw, ne_eq, not_true, decide_false, Bool.false_eq_true, if_false, hone]
      exact ih hk
    · simp only [hw, ne_eq, not_false_eq_true, decide_true, if_true, List.map_cons,
        List.foldlM_cons]
      cases hc : boundedMul k n with
      | none => rfl
      | some c =>
        obtain ⟨hlt, he⟩ := Option.ite_none_right_eq_some.mp hc
        obtain rfl := Option.some.inj he
        exact ih hlt

theorem Literal.literalCount {literal : List Nat} (h : Literal target literal) :
    literalCount target (target.zipWith itemExtent literal) =
      (ofOption .overflow (boundedProduct literal)).map some := by
  rw [Inferred.literalCount, h.literalSizes?]
  exact congrArg (fun x => (ofOption .overflow x).map some) (h.foldlM_bounded (by decide))

/-- The sizes of a target that can be resolved, before and after its open item is filled in. -/
theorem resolveTarget?_eq_some (h : resolveTarget? sizes target specialZero = some positions) :
    ∃ literal, target.zipIdx.mapM
        (fun (item, axis) => targetSize? sizes specialZero item axis) = some literal ∧
      ((-1 ∉ target ∧ positions = literal ∧ entryCount literal = entryCount sizes) ∨
        (target.count (-1) = 1 ∧ entryCount literal ≠ 0 ∧
          entryCount sizes % entryCount literal = 0 ∧
          positions = target.zipWith (fun item n =>
            if item = -1 then entryCount sizes / entryCount literal else n) literal)) := by
  obtain ⟨literal, hliteral, h⟩ := Option.bind_eq_some_iff.mp h
  refine ⟨literal, hliteral, ?_⟩
  split at h
  · rename_i hzero
    split at h
    · rename_i hcount
      exact .inl ⟨List.count_eq_zero.mp hzero, (Option.some.inj h).symm, hcount⟩
    · cases h
  · rename_i hone
    split at h
    · cases h
    · rename_i hfits
      rw [not_or, not_not] at hfits
      refine .inr ⟨hone, hfits.1, hfits.2, (Option.some.inj h).symm.trans ?_⟩
      rw [List.zip, List.map_zipWith]
  · cases h

theorem sized_of_not_mem {literal : List Nat} (h : Literal target literal) (hw : -1 ∉ target) :
    target.zipWith itemExtent literal = literal.map .known := by
  induction h with
  | nil => rfl
  | cons hitem _ ih =>
    obtain ⟨hne, hw⟩ := not_or.mp (mt List.mem_cons.mpr hw)
    rw [List.zipWith_cons_cons, ih hw, itemExtent, if_neg (Ne.symm hne), List.map_cons]

theorem sized_fill {literal : List Nat} {size : Nat} (h : Literal target literal) :
    ((target.zip (target.zipWith itemExtent literal)).map fun (item, e) =>
      if item = -1 then Extent.known size else e) =
      (target.zipWith (fun item n => if item = -1 then size else n) literal).map .known := by
  induction h with
  | nil => rfl
  | @cons item n _ _ _ _ ih =>
    rw [List.zipWith_cons_cons, List.zip_cons_cons, List.map_cons, ih, List.zipWith_cons_cons,
      List.map_cons, itemExtent]
    by_cases hw : item = -1 <;> simp [hw]

theorem refines_itemExtents {literal : List Nat} {size : Nat} (h : Literal target literal) :
    List.Forall₂ Extent.Refines
      ((target.zipWith (fun item n => if item = -1 then size else n) literal).map .known)
      (target.zipWith itemExtent literal) := by
  induction h with
  | nil => exact .nil
  | @cons item n _ _ _ _ ih =>
    refine .cons ?_ ih
    dsimp only [itemExtent]
    by_cases hw : item = -1
    · rw [if_pos hw, if_pos hw]
      exact .unknown _
    · rw [if_neg hw, if_neg hw]
      exact .known n

theorem refines_of_reshape {s s' : Spec} (h : t.reshape? target specialZero = some u)
    (hs : t.spec.Refines s) (hinfer : reshape target specialZero s = .ok s') :
    u.spec.Refines s' := by
  obtain ⟨hsizes, helement, -⟩ := Tensor.reshape?_eq_some_iff.mp h
  obtain ⟨literal, hmapM, hcases⟩ := resolveTarget?_eq_some hsizes
  have hliteral := literal_of_mapM hmapM
  obtain ⟨_, -, hinfer⟩ := bind_eq_ok_iff.mp hinfer
  obtain ⟨_, -, hinfer⟩ := bind_eq_ok_iff.mp hinfer
  obtain ⟨extents, hextents, hinfer⟩ := bind_eq_ok_iff.mp hinfer
  obtain ⟨known, hknown, hinfer⟩ := bind_eq_ok_iff.mp hinfer
  have hopen : List.Forall₂ Extent.Refines (u.sizes.map .known) extents := by
    obtain ⟨extents', hextents', hrefine⟩ := Covers.mapM (List.forall₂_same.mpr fun _ _ =>
      covers_targetExtent hs.shape) _ (targetExtents_ofSizes hmapM)
    obtain rfl := Except.ok.inj (hextents'.symm.trans hextents)
    refine forall₂_trans .trans ?_ hrefine
    rcases hcases with ⟨hnot, he, -⟩ | ⟨-, -, -, he⟩
    · rw [he, sized_of_not_mem hliteral hnot]
      exact List.forall₂_same.mpr fun _ _ => .rfl
    · rw [he]
      exact refines_itemExtents hliteral
  have hrefines (s' : Spec) (h : s' = ⟨s.elementType, .ranked extents⟩) : u.spec.Refines s' :=
    h ▸ ⟨helement.trans hs.elementType, .ranked hopen⟩
  split at hinfer
  · rename_i total count htotal
    split at hinfer
    · rename_i hmem
      obtain ⟨_, -, hinfer⟩ := bind_eq_ok_iff.mp hinfer
      obtain rfl := Except.ok.inj hinfer
      have hshape : t.spec.shape = s.shape := hs.shape.eq_of_elementCount? htotal
      rw [← hshape] at hextents htotal
      obtain rfl := Except.ok.inj ((targetExtents_ofSizes hmapM).symm.trans hextents)
      rw [hliteral.literalCount] at hknown
      obtain ⟨product, hproduct, hknown⟩ : ∃ product, boundedProduct literal = some product ∧
          some product = some count := by
        cases hproduct : boundedProduct literal with
        | none => rw [hproduct] at hknown; cases hknown
        | some product => rw [hproduct] at hknown; exact ⟨product, rfl, Except.ok.inj hknown⟩
      obtain rfl := Option.some.inj hknown
      obtain ⟨hnot, -⟩ | ⟨-, -, -, he⟩ := hcases
      · exact absurd hmem hnot
      · refine ⟨helement.trans hs.elementType, ?_⟩
        dsimp only
        rw [sized_fill hliteral, elementCount?_ofSizes htotal, boundedProduct_eq_some hproduct, ← he]
        exact .rfl
    · obtain ⟨_, -, hinfer⟩ := bind_eq_ok_iff.mp hinfer
      exact hrefines s' (Except.ok.inj hinfer).symm
  · exact hrefines s' (Except.ok.inj hinfer).symm

theorem exists_reshape (h : t.reshape? target specialZero = some u)
    (hfits : t.ReshapeFits target specialZero) :
    ∃ s, reshape target specialZero t.spec = .ok s := by
  obtain ⟨hsizes, -, -⟩ := Tensor.reshape?_eq_some_iff.mp h
  obtain ⟨literal, hmapM, hcases⟩ := resolveTarget?_eq_some hsizes
  have hliteral := literal_of_mapM hmapM
  have hone : target.count (-1) ≤ 1 := by
    rcases hcases with ⟨hnot, -⟩ | ⟨hcount, -⟩
    · exact (List.count_eq_zero.mpr hnot).trans_le (Nat.zero_le 1)
    · exact hcount.le
  obtain ⟨product, hproduct⟩ := Option.isSome_iff_exists.mp (hfits.2 hone literal hmapM)
  have hcount : literalCount target (target.zipWith itemExtent literal) = .ok (some product) := by
    rw [hliteral.literalCount, hproduct]
    rfl
  refine exists_bind_ok (require_eq_ok_iff.mpr (decide_eq_true hone)) ?_
  refine exists_bind_ok (require_eq_ok_iff.mpr hliteral.all_le) ?_
  refine exists_bind_ok (targetExtents_ofSizes hmapM) ?_
  refine exists_bind_ok hcount ?_
  cases htotal : t.spec.shape.elementCount? with
  | none => exact ⟨_, rfl⟩
  | some total =>
    obtain rfl := elementCount?_ofSizes htotal
    obtain rfl := boundedProduct_eq_some hproduct
    dsimp only
    rcases hcases with ⟨hnot, -, hsame⟩ | ⟨hmem, hpos, hmod, -⟩
    · rw [if_neg hnot]
      exact exists_bind_ok (require_eq_ok_iff.mpr (beq_iff_eq.mpr hsame)) ⟨_, rfl⟩
    · rw [if_pos (List.count_pos_iff.mp (hmem ▸ Nat.one_pos))]
      refine exists_bind_ok (require_eq_ok_iff.mpr ?_) ⟨_, rfl⟩
      rw [Bool.and_eq_true, bne_iff_ne, beq_iff_eq]
      exact ⟨hpos, hmod⟩

/-! ### Added and removed axes -/

theorem dropPositions_single (sizes : List Nat) :
    (dropPositions ((List.range sizes.length).filter fun i => sizes[i]? == some 1) sizes).map
      Extent.known = (sizes.map .known).filter (· ≠ .known 1) := by
  have hmem (x : Nat × Nat) (hx : x ∈ sizes.zipIdx) :
      x.2 ∈ (List.range sizes.length).filter (fun i => sizes[i]? == some 1) ↔ x.1 = 1 := by
    have hget := List.mem_zipIdx_iff_getElem?.mp hx
    rw [List.mem_filter, List.mem_range, hget, beq_iff_eq, Option.some.injEq]
    exact and_iff_right (List.getElem?_eq_some_iff.mp hget).1
  have hdrop : dropPositions ((List.range sizes.length).filter fun i => sizes[i]? == some 1) sizes =
      sizes.zipIdx.filterMap fun x => if x.1 = 1 then none else some x.1 := by
    refine List.filterMap_congr fun x hx => ?_
    simp only [hmem x hx]
  have hfilter : ∀ (k : Nat) (l : List Nat),
      (l.zipIdx k).filterMap (fun x => if x.1 = 1 then none else some x.1) = l.filter (· ≠ 1) := by
    intro k l
    induction l generalizing k with
    | nil => rfl
    | cons n l ih =>
      rw [List.zipIdx_cons, List.filterMap_cons, ih, List.filter_cons]
      by_cases hn : n = 1 <;> simp [hn]
  rw [hdrop, hfilter, List.filter_map]
  refine congrArg _ (List.filter_congr fun n _ => ?_)
  simp

theorem squeezeAxis_spec (h : (do
      let i ← resolveAxis axis sizes.length
      if sizes[i]? = some 1 then some i else none) = some n) :
    squeezeAxis (.ofSizes sizes) (sizes.map .known) axis = .ok n := by
  obtain ⟨i, hi, h⟩ := Option.bind_eq_some_iff.mp h
  split at h
  · rename_i hone
    obtain rfl := Option.some.inj h
    have hresolve : axisOf (.ofSizes sizes) (sizes.map Extent.known).length axis = .ok i := by
      rw [axisOf, List.length_map, hi]
      rfl
    refine bind_eq_ok_iff.mpr ⟨i, hresolve, ?_⟩
    refine bind_eq_ok_iff.mpr ⟨(), require_eq_ok_iff.mpr ?_, rfl⟩
    rw [List.getElem?_map, hone]
    rfl
  · cases h

theorem squeeze_spec (h : t.squeeze? axes = some u) : squeeze axes t.spec = .ok u.spec := by
  obtain ⟨positions, hpositions, h⟩ := Option.bind_eq_some_iff.mp h
  obtain ⟨helement, hsizes, -⟩ := Tensor.withSizes?_eq_some_iff.mp h
  unfold squeezePositions? at hpositions
  simp only [squeeze, Tensor.spec, Shape.ofSizes]
  split at hpositions
  · rename_i hempty
    obtain rfl := Option.some.inj hpositions
    rw [if_pos hempty, if_pos (List.all_eq_true.mpr (by simp [Extent.isKnown]))]
    rw [← dropPositions_single, ← hsizes, helement]
    rfl
  · rename_i hempty
    rw [if_neg hempty]
    have haxes := mapM_eq_ok_of_some (fun _ _ => squeezeAxis_spec) hpositions
    refine bind_eq_ok_iff.mpr ⟨positions, haxes, ?_⟩
    rw [hsizes, helement, eq_of_sized (forall₂_dropPositions (sized_known t.sizes) positions)]
    rfl

theorem newAxes_eq_ok {rank : Nat} : ∀ {axes : List Int} {found positions : List Nat},
    axes.mapM (fun axis => resolveAxis axis rank) = some positions →
    (positions.reverse ++ found).Nodup →
    newAxes rank found axes = .ok (positions.reverse ++ found)
  | [], found, _, h, _ => by
    obtain rfl := Option.some.inj h
    rfl
  | axis :: axes, found, _, h, hnodup => by
    rw [List.mapM_cons] at h
    obtain ⟨i, hi, h⟩ := Option.bind_eq_some_iff.mp h
    obtain ⟨positions, hpositions, h⟩ := Option.bind_eq_some_iff.mp h
    obtain rfl := Option.some.inj h
    rw [List.reverse_cons, List.append_assoc, List.singleton_append] at hnodup ⊢
    have hnew : i ∉ found := (List.nodup_cons.mp hnodup.of_append_right).1
    refine bind_eq_ok_iff.mpr ⟨i, by rw [hi]; rfl, ?_⟩
    refine bind_eq_ok_iff.mpr ⟨(), require_eq_ok_iff.mpr (decide_eq_true hnew), ?_⟩
    exact newAxes_eq_ok hpositions hnodup

theorem unsqueeze_spec (h : t.unsqueeze? axes = some u) : unsqueeze axes t.spec = .ok u.spec := by
  obtain ⟨positions, hpositions, h⟩ := Option.bind_eq_some_iff.mp h
  obtain ⟨sizes, hsizes, h⟩ := Option.bind_eq_some_iff.mp h
  obtain ⟨helement, hus, -⟩ := Tensor.withSizes?_eq_some_iff.mp h
  obtain ⟨found, hfound, h⟩ := Option.bind_eq_some_iff.mp hpositions
  split at h
  · rename_i hnodup
    obtain rfl := Option.some.inj h
    have hnew : newAxes (t.sizes.length + axes.length) [] axes = .ok (found.reverse ++ []) :=
      newAxes_eq_ok hfound (by simpa using hnodup)
    rw [List.append_nil] at hnew
    obtain ⟨extents, hextents, hsized⟩ :=
      forall₂_interleave (R := fun n e => e = Extent.known n) rfl (sized_known t.sizes) hsizes
    simp only [unsqueeze, Tensor.spec, Shape.ofSizes]
    refine bind_eq_ok_iff.mpr ⟨found.reverse, by rwa [List.length_map], ?_⟩
    refine bind_eq_ok_iff.mpr ⟨extents, ?_, ?_⟩
    · simp only [List.length_map, List.mem_reverse, hextents]
      rfl
    · rw [eq_of_sized hsized, helement, hus]
      rfl
  · cases h

end Inferred

/-- Inference on the specs of operands that can be folded. Only a reshape takes products there. -/
theorem Primitive.infer_of_fold? {p : Primitive} {operands : List Tensor}
    (h : p.fold? operands = some t) (hfits : p.kind = .reshape → p.foldFits operands = true) : ∃ s,
      CapabilityTable.standard.infer (.primitive p) (operands.map Tensor.spec) = .ok [s] ∧
        t.spec.Refines s := by
  have hinfer {p : Primitive} {specs : List Spec} {x : Inferred Spec} {s : Spec}
      (harity : (Capability.standard p.kind).arity.accepts specs.length = true)
      (hrule : (Capability.standard p.kind).rule (.primitive p) specs = x >>= fun s => pure [s])
      (hs : x = .ok s) : CapabilityTable.standard.infer (.primitive p) specs = .ok [s] := by
    simp only [CapabilityTable.infer, CapabilityTable.standard, Operation.kind]
    rw [if_pos harity, hrule, hs]
    rfl
  unfold Primitive.fold? at h
  split at h
  · exact ⟨_, hinfer rfl rfl (Inferred.arithmetic_spec h), .rfl⟩
  · exact ⟨_, hinfer rfl rfl (Inferred.arithmetic_spec h), .rfl⟩
  · exact ⟨_, hinfer rfl rfl (Inferred.arithmetic_spec h), .rfl⟩
  · obtain ⟨s, hs⟩ := Inferred.exists_reshape h (of_decide_eq_true (hfits rfl))
    exact ⟨s, hinfer rfl rfl hs, Inferred.refines_of_reshape h .rfl hs⟩
  · exact ⟨_, hinfer rfl rfl (Inferred.transpose_spec h), .rfl⟩
  · exact ⟨_, hinfer rfl rfl (Inferred.squeeze_spec h), .rfl⟩
  · exact ⟨_, hinfer rfl rfl (Inferred.unsqueeze_spec h), .rfl⟩
  · obtain rfl := Option.some.inj h
    exact ⟨_, hinfer rfl rfl rfl, .rfl⟩
  · cases h

theorem Primitive.refines_of_fold? {p : Primitive} {operands : List Tensor}
    {given outputs : List Spec} (h : p.fold? operands = some t)
    (hgiven : List.Forall₂ Spec.Refines (operands.map Tensor.spec) given)
    (hinfer : CapabilityTable.standard.infer (.primitive p) given = .ok outputs) :
    ∀ s ∈ outputs, t.spec.Refines s := by
  by_cases hreshape : p.kind = .reshape
  · obtain ⟨target, specialZero, rfl⟩ : ∃ target specialZero, p = .reshape target specialZero := by
      cases p <;> first | exact ⟨_, _, rfl⟩ | cases hreshape
    unfold Primitive.fold? at h
    split at h <;> try contradiction
    rename_i u heq
    obtain ⟨rfl, rfl⟩ := Primitive.reshape.inj heq
    obtain ⟨s, _, hs, hnil, rfl⟩ := List.forall₂_cons_left_iff.mp hgiven
    obtain rfl := List.forall₂_nil_left_iff.mp hnil
    obtain ⟨-, hrule⟩ := Operation.infer_standard_eq_ok hinfer
    obtain ⟨s', hs', rfl⟩ := Inferred.bind_singleton_eq_ok_iff.mp hrule
    exact List.forall_mem_singleton.mpr (Inferred.refines_of_reshape h hs hs')
  · have hp : p ≠ .fullyConnected := by
      rintro rfl
      cases h
    obtain ⟨s, hs, hrefines⟩ := p.infer_of_fold? h fun hk => absurd hk hreshape
    obtain ⟨outputs', houtputs, hall⟩ := CapabilityTable.covers_infer p hp hgiven _ hs
    obtain rfl := Except.ok.inj (hinfer.symm.trans houtputs)
    obtain ⟨s', _, hs', hnil, rfl⟩ := List.forall₂_cons_left_iff.mp hall
    obtain rfl := List.forall₂_nil_left_iff.mp hnil
    exact List.forall_mem_singleton.mpr (hrefines.trans hs')

end TensorGraph
