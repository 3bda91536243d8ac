import TensorGraph.Proofs.Inference.Elementwise

/-! # Selected and joined entries on refined inputs

The rules of the operations that select, reduce or join along axes are monotone.
-/

namespace TensorGraph

variable {s c a a' b b' : Spec} {shape concrete : Shape} {axis : Int}

namespace Inferred

/-! ### Selections and reductions -/

theorem covers_unique {indexType : ElementType} {axis : Option Int} (h : c.Refines s) :
    Covers (List.Forall₂ Spec.Refines) (unique indexType axis s) (unique indexType axis c) := by
  refine (covers_require id).bind fun _ => ?_
  have houtputs {values values' reverse reverse' : Shape} (hv : values'.Refines values)
      (hr : reverse'.Refines reverse) : List.Forall₂ Spec.Refines
        [⟨c.elementType, values'⟩, ⟨indexType, .ofRank 1⟩, ⟨indexType, reverse'⟩,
          ⟨indexType, .ofRank 1⟩]
        [⟨s.elementType, values⟩, ⟨indexType, .ofRank 1⟩, ⟨indexType, reverse⟩,
          ⟨indexType, .ofRank 1⟩] :=
    .cons ⟨h.elementType, hv⟩ (.cons .rfl (.cons ⟨rfl, hr⟩ (.cons .rfl .nil)))
  cases axis with
  | none =>
    refine .pure (houtputs .rfl ?_)
    cases hcount : s.shape.elementCount? with
    | some count =>
      rw [h.shape.eq_of_elementCount? hcount, hcount]
      exact .rfl
    | none =>
      cases c.shape.elementCount? with
      | none => exact .rfl
      | some count => exact Shape.refines_ofRank [_]
  | some axis =>
  cases h using Spec.Refines.byShape with
  | unranked t c h =>
    intro outs houts
    refine ⟨_, rfl, ?_⟩
    obtain ⟨u, concrete⟩ := c
    cases concrete with
    | unranked =>
      obtain rfl := Except.ok.inj houts
      exact houtputs .rfl .rfl
    | ranked concrete =>
      obtain ⟨i, -, houts⟩ := bind_eq_ok_iff.mp houts
      obtain rfl := Except.ok.inj houts
      exact houtputs (.unranked _) (Shape.refines_ofRank [_])
  | ranked t extents concrete h =>
    dsimp only
    rw [h.length_eq]
    refine covers_axisOf.bind ?_
    rintro _ i rfl
    exact .pure (houtputs (.ranked (forall₂_set h .rfl i))
      (.ranked (.cons (forall₂_getD h .rfl i) .nil)))

theorem covers_shapeOf {output : ElementType} (h : c.Refines s) :
    Covers Spec.Refines (shapeOf output s) (shapeOf output c) := by
  refine (covers_require id).bind fun _ => ?_
  cases h using Spec.Refines.byShape with
  | unranked t c h =>
    intro s hs
    refine ⟨_, rfl, ?_⟩
    split at hs <;> obtain rfl := Except.ok.inj hs
    · exact ⟨rfl, Shape.refines_ofRank [_]⟩
    · exact .rfl
  | ranked t extents concrete h =>
    simp only [Shape.rank?, Shape.extents?, Option.map_some, h.length_eq]
    exact .pure .rfl

theorem mayBeSingle_of_refines (h : concrete.Refines shape) (hc : mayBeSingle concrete = true) :
    mayBeSingle shape = true := by
  cases hcount : shape.elementCount? with
  | none => rw [mayBeSingle, hcount]; rfl
  | some count => rwa [← h.eq_of_elementCount? hcount]

theorem covers_topK {indexType : ElementType} (ha : a'.Refines a) (hb : b'.Refines b) :
    Covers (List.Forall₂ Spec.Refines) (topK axis indexType a b) (topK axis indexType a' b') := by
  refine (covers_requireType hb).bind fun _ => ?_
  refine (covers_require (mayBeSingle_of_refines hb.shape)).bind fun _ => ?_
  have houtputs {shape shape' : Shape} (h : shape'.Refines shape) : List.Forall₂ Spec.Refines
      [⟨a'.elementType, shape'⟩, ⟨indexType, shape'⟩]
      [⟨a.elementType, shape⟩, ⟨indexType, shape⟩] :=
    .cons ⟨ha.elementType, h⟩ (.cons ⟨rfl, h⟩ .nil)
  cases ha using Spec.Refines.byShape with
  | unranked t a' ha =>
    intro outs houts
    refine ⟨_, rfl, ?_⟩
    dsimp only at houts
    split at houts
    · obtain rfl := Except.ok.inj houts
      exact houtputs (.unranked _)
    · obtain ⟨i, -, houts⟩ := bind_eq_ok_iff.mp houts
      obtain rfl := Except.ok.inj houts
      exact houtputs (.unranked _)
  | ranked t extents concrete h =>
    dsimp only
    rw [h.length_eq]
    refine covers_axisOf.bind ?_
    rintro _ i rfl
    exact .pure (houtputs (.ranked (forall₂_set h .rfl i)))

theorem covers_slicedExtent {start stop step : Int} {x y : Extent} (h : y.Refines x) :
    Covers Extent.Refines (slicedExtent start stop step x) (slicedExtent start stop step y) := by
  cases h with
  | unknown e => exact fun e' _ => ⟨.unknown, rfl, .unknown e'⟩
  | known n => exact fun e he => ⟨e, he, .rfl⟩

theorem covers_slice {start stop step : Int} (h : c.Refines s) :
    Covers Spec.Refines (slice start stop step axis s) (slice start stop step axis c) := by
  refine (covers_require id).bind fun _ => ?_
  cases h using Spec.Refines.byShape with
  | unranked t c h =>
    refine covers_unranked fun s hs => ?_
    split at hs
    · exact Except.ok.inj hs ▸ h.elementType
    · obtain ⟨_, -, hs⟩ := bind_eq_ok_iff.mp hs
      obtain ⟨_, -, hs⟩ := bind_eq_ok_iff.mp hs
      exact Except.ok.inj hs ▸ h.elementType
  | ranked t extents concrete h =>
    dsimp only
    rw [h.length_eq]
    refine covers_axisOf.bind ?_
    rintro _ i rfl
    refine (covers_slicedExtent (forall₂_getD h (.unknown _) i)).bind fun hextent => ?_
    exact .pure ⟨rfl, .ranked (forall₂_set h hextent i)⟩

theorem covers_nonZero {output : ElementType} (h : c.Refines s) :
    Covers Spec.Refines (nonZero output s) (nonZero output c) := by
  refine (covers_require id).bind fun _ => ?_
  cases h using Spec.Refines.byShape with
  | unranked t c h =>
    intro s hs
    refine ⟨_, rfl, ?_⟩
    split at hs <;> obtain rfl := Except.ok.inj hs
    · exact ⟨rfl, Shape.refines_ofRank [_, _]⟩
    · exact .rfl
  | ranked t extents concrete h =>
    simp only [Shape.rank?, Shape.extents?, Option.map_some, h.length_eq]
    exact .pure .rfl

theorem covers_gather (ha : a'.Refines a) (hb : b'.Refines b) :
    Covers Spec.Refines (gather axis a b) (gather axis a' b') := by
  refine (covers_requireType hb).bind fun _ => ?_
  cases ha using Spec.Refines.byShape with
  | unranked t a' ha =>
    refine covers_unranked fun s hs => ?_
    split at hs
    · obtain ⟨_, -, hs⟩ := bind_eq_ok_iff.mp hs
      exact (elementType_of_ok hs).trans ha.elementType
    · exact (elementType_of_ok hs).trans ha.elementType
  | ranked t as as' ha =>
  cases hb using Spec.Refines.byShape with
  | unranked u b' hb =>
    refine covers_unranked fun s hs => ?_
    split at hs
    · obtain ⟨_, -, hs⟩ := bind_eq_ok_iff.mp hs
      exact elementType_of_ok hs
    · exact elementType_of_ok hs
  | ranked u bs bs' hb =>
  dsimp only
  rw [ha.length_eq]
  refine covers_axisOf.bind ?_
  rintro _ i rfl
  exact .pure ⟨rfl, .ranked (List.rel_append (List.rel_append (List.forall₂_take i ha) hb)
    (List.forall₂_drop (i + 1) ha))⟩

theorem covers_range {output : ElementType} {bounds bounds' : List Spec}
    (h : List.Forall₂ Spec.Refines bounds' bounds) :
    Covers Spec.Refines (range output bounds) (range output bounds') := by
  refine Covers.bind (R := fun _ _ => True) ?_ fun _ => .pure .rfl
  intro _ hall
  rw [forM_eq_ok_iff] at hall
  refine ⟨(), forM_eq_ok_iff.mpr fun s hs => ?_, trivial⟩
  obtain ⟨i, hi⟩ := List.mem_iff_getElem?.mp hs
  obtain ⟨c, hc, hr⟩ := forall₂_getElem? h.flip i hi
  have hsingle := require_eq_ok_iff.mp (hall c (List.mem_of_getElem? hc))
  exact require_eq_ok_iff.mpr (mayBeSingle_of_refines hr.shape hsingle)

theorem covers_reduce {axes : List Int} {keepAxes : Bool} (h : c.Refines s) :
    Covers Spec.Refines (reduce axes keepAxes s) (reduce axes keepAxes c) := by
  cases h using Spec.Refines.byShape with
  | unranked t c h =>
    exact covers_unranked fun s hs => (elementType_reduce hs).trans h.elementType
  | ranked t extents concrete h =>
    unfold reduce
    dsimp only
    rw [h.length_eq]
    refine Covers.bind (.mapM (List.forall₂_same.mpr fun _ _ => covers_axisOf)) ?_
    intro positions positions' hpositions
    rw [List.forall₂_eq_eq_eq] at hpositions
    obtain rfl := hpositions
    split
    · refine .pure ⟨rfl, .ranked ?_⟩
      rw [List.forall₂_map_left_iff, List.forall₂_map_right_iff]
      refine (forall₂_zipIdx h 0).imp ?_
      rintro ⟨x, i⟩ ⟨y, j⟩ ⟨hxy, rfl⟩
      dsimp only
      split
      · exact .rfl
      · exact hxy
    · exact .pure ⟨rfl, .ranked (forall₂_dropPositions h _)⟩

/-! ### Joined tensors -/

theorem joinedLength_mono {length length' : Option Nat} {x y : Extent} {n : Nat}
    (h : ∀ n, length = some n → length' = some n) (hxy : y.Refines x)
    (hn : joinedLength length x = some n) : joinedLength length' y = some n := by
  obtain ⟨sum, hsum, hn⟩ := Option.bind_eq_some_iff.mp hn
  obtain ⟨size, hsize, hn⟩ := Option.bind_eq_some_iff.mp hn
  exact Option.bind_eq_some_iff.mpr ⟨sum, h sum hsum, Option.bind_eq_some_iff.mpr
    ⟨size, hxy.size? hsize, hn⟩⟩

theorem refines_of_mergeExcept {joined : Nat} {length : Option Nat} :
    ∀ {as bs extents : List Extent} (k : Nat), bs.length = as.length →
      ((as.zip bs).zipIdx k).mapM (mergeAxis joined length) = .ok extents →
      List.Forall₂ Extent.Refines extents as
  | [], _, _, _, _, e => by
    obtain rfl := Except.ok.inj e
    exact .nil
  | a :: as, [], _, _, hlen, _ => by cases hlen
  | a :: as, b :: bs, _, k, hlen, e => by
    rw [List.zip_cons_cons, List.zipIdx_cons, List.mapM_cons] at e
    obtain ⟨x, hx, e⟩ := bind_eq_ok_iff.mp e
    obtain ⟨extents, hextents, e⟩ := bind_eq_ok_iff.mp e
    obtain rfl := Except.ok.inj e
    refine .cons ?_ (refines_of_mergeExcept (k + 1) (Nat.succ.inj hlen) hextents)
    dsimp only [mergeAxis] at hx
    split at hx
    · obtain ⟨_, -, hx⟩ := bind_eq_ok_iff.mp hx
      exact Except.ok.inj hx ▸ .rfl
    · cases hm : a.merge b with
      | none => rw [hm] at hx; cases hx
      | some z =>
        rw [hm] at hx
        exact Except.ok.inj hx ▸ Extent.refines_of_merge hm

theorem covers_mergeExcept {joined : Nat} {length length' : Option Nat}
    {as as' bs bs' : List Extent} (hlength : ∀ n, length = some n → length' = some n)
    (ha : List.Forall₂ Extent.Refines as' as) (hb : List.Forall₂ Extent.Refines bs' bs) :
    Covers (List.Forall₂ Extent.Refines) (mergeExcept joined length as bs)
      (mergeExcept joined length' as' bs') := by
  refine .mapM ((forall₂_zipIdx (forall₂_zip ha hb) 0).imp ?_)
  rintro ⟨⟨x', y'⟩, i⟩ ⟨⟨x, y⟩, j⟩ ⟨⟨hx, hy⟩, rfl⟩
  dsimp only [mergeAxis]
  split
  · refine (covers_require fun hall => ?_).bind fun _ => .pure hx
    rw [Option.all_eq_true] at hall ⊢
    exact fun n hn => hall n (joinedLength_mono hlength hy hn)
  · exact covers_ofOption fun z hz => Extent.merge_refines hx hy hz

/-- Extents for so many axes, and a length along the joined one that is known or open. -/
structure JoinRefines (rank : Nat) (y x : List Extent × Option Nat) : Prop where
  rank : x.1.length = rank
  extents : List.Forall₂ Extent.Refines y.1 x.1
  length : ∀ n, x.2 = some n → y.2 = some n

theorem covers_concatStep {joined rank : Nat} {x y : List Extent × Option Nat}
    (h : JoinRefines rank y x) (hc : c.Refines s) :
    Covers (JoinRefines rank) (concatStep joined rank x s) (concatStep joined rank y c) := by
  cases hc using Spec.Refines.byShape with
  | unranked t c hc =>
    intro z hz
    refine ⟨(x.1, none), rfl, h.rank, ?_, fun _ hn => nomatch hn⟩
    unfold concatStep at hz
    split at hz
    · exact Except.ok.inj hz ▸ h.extents
    · obtain ⟨_, hlen, hz⟩ := bind_eq_ok_iff.mp hz
      obtain ⟨merged, hmerged, hz⟩ := bind_eq_ok_iff.mp hz
      obtain rfl := Except.ok.inj hz
      have hlen := (eq_of_beq (require_eq_ok_iff.mp hlen)).trans
        (h.rank.symm.trans h.extents.length_eq.symm)
      exact forall₂_trans .trans (refines_of_mergeExcept 0 hlen hmerged) h.extents
  | ranked t extents concrete hc =>
    unfold concatStep
    dsimp only
    rw [hc.length_eq]
    refine Covers.bind (R := fun _ _ => extents.length = rank) ?_ fun hlen => ?_
    · intro _ hlen
      exact ⟨(), hlen, eq_of_beq (require_eq_ok_iff.mp hlen)⟩
    refine Covers.bind (R := fun b a => List.Forall₂ Extent.Refines b a ∧ a.length = rank) ?_ ?_
    · intro merged' hmerged'
      obtain ⟨merged, hmerged, hrefine⟩ :=
        covers_mergeExcept h.length h.extents hc merged' hmerged'
      exact ⟨merged, hmerged, hrefine,
        (refines_of_mergeExcept 0 (hlen.trans h.rank.symm) hmerged).length_eq.trans h.rank⟩
    · rintro merged merged' ⟨hrefine, hrank⟩
      exact .pure ⟨hrank, hrefine, fun n hn =>
        joinedLength_mono h.length (forall₂_getD hc (.unknown _) joined) hn⟩

theorem rank_of_concat {joined rank : Nat} :
    ∀ {inputs : List Spec} {x y : List Extent × Option Nat},
      inputs.foldlM (concatStep joined rank) x = .ok y →
        ∀ s ∈ inputs, ∀ n, s.shape.rank? = some n → n = rank
  | [], _, _, _, _, hs, _, _ => absurd hs List.not_mem_nil
  | first :: rest, x, y, e, s, hs, n, hn => by
    rw [List.foldlM_cons] at e
    obtain ⟨z, hz, e⟩ := bind_eq_ok_iff.mp e
    rcases List.mem_cons.mp hs with rfl | hs
    · unfold concatStep at hz
      split at hz
      · rename_i hshape
        rw [hshape] at hn
        cases hn
      · rename_i hshape
        rw [hshape] at hn
        obtain ⟨_, hlen, -⟩ := bind_eq_ok_iff.mp hz
        exact (Option.some.inj hn).symm.trans (eq_of_beq (require_eq_ok_iff.mp hlen))
    · exact rank_of_concat e s hs n hn

theorem map_elementType {given concrete : List Spec}
    (h : List.Forall₂ Spec.Refines concrete given) :
    concrete.map Spec.elementType = given.map Spec.elementType := by
  induction h with
  | nil => rfl
  | cons hx _ ih => rw [List.map_cons, List.map_cons, hx.elementType, ih]

theorem covers_concat {rest rest' : List Spec} (h : c.Refines s)
    (hrest : List.Forall₂ Spec.Refines rest' rest) :
    Covers Spec.Refines (concat axis s rest) (concat axis c rest') := by
  have hinputs : List.Forall₂ Spec.Refines (c :: rest') (s :: rest) := .cons h hrest
  have htypes : (rest'.all fun input => input.elementType == c.elementType) = true →
      (rest.all fun input => input.elementType == s.elementType) = true := by
    have hall (t : ElementType) (l : List Spec) :
        (l.all fun input => input.elementType == t) = (l.map Spec.elementType).all (· == t) := by
      rw [List.all_map]
      rfl
    rw [hall, hall, map_elementType hrest, h.elementType]
    exact id
  refine (covers_require htypes).bind fun _ => ?_
  intro out hout
  cases hrank : (s :: rest).findSome? fun input => input.shape.rank? with
  | none =>
    refine ⟨_, rfl, ?_, .unranked _⟩
    split at hout
    · exact (elementType_of_ok hout).trans h.elementType
    · obtain ⟨_, -, hout⟩ := bind_eq_ok_iff.mp hout
      obtain ⟨_, -, hout⟩ := bind_eq_ok_iff.mp hout
      exact (elementType_of_ok hout).trans h.elementType
  | some rank =>
    -- the first known rank is that of all inputs that have one
    obtain ⟨input, hmem, hinput⟩ := List.exists_of_findSome?_eq_some hrank
    obtain ⟨i, hi⟩ := List.mem_iff_getElem?.mp hmem
    obtain ⟨refined, hrefined, hr⟩ := forall₂_getElem? hinputs.flip i hi
    have hmem' := List.mem_of_getElem? hrefined
    have hrank' := hr.shape.rank? hinput
    split at hout
    · rename_i hnone
      rw [List.findSome?_eq_none_iff.mp hnone refined hmem'] at hrank'
      cases hrank'
    · rename_i rank' _
      obtain ⟨joined, hjoined, hrest'⟩ := bind_eq_ok_iff.mp hout
      obtain ⟨⟨extents', length'⟩, hstate', hout'⟩ := bind_eq_ok_iff.mp hrest'
      obtain rfl := rank_of_concat hstate' refined hmem' rank hrank'
      obtain ⟨⟨extents, length⟩, hstate, hjoin⟩ := Covers.foldlM hinputs covers_concatStep
        ⟨List.length_replicate, List.forall₂_same.mpr fun _ _ => .rfl, fun _ => id⟩ _ hstate'
      obtain rfl := Except.ok.inj hout'
      refine ⟨_, bind_eq_ok_iff.mpr ⟨joined, hjoined, bind_eq_ok_iff.mpr ⟨_, hstate, rfl⟩⟩,
        h.elementType, .ranked (forall₂_set hjoin.extents ?_ joined)⟩
      cases length with
      | some n =>
        obtain rfl := hjoin.length n rfl
        exact .known n
      | none => exact .unknown _

end Inferred

end TensorGraph
