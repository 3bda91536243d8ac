import TensorGraph.Proofs.Inference.Elementwise

/-! # Changes of layout on refined inputs

The rules of the operations that change axes are monotone. An item that a reshape infers stays
open until all sizes are known.
-/

namespace TensorGraph

variable {s c : Spec} {shape concrete : Shape}

namespace Inferred

theorem covers_transpose {perm : List Nat} (h : c.Refines s) :
    Covers Spec.Refines (transpose perm s) (transpose perm c) := by
  refine (covers_require id).bind fun _ => ?_
  cases h using Spec.Refines.byShape with
  | unranked t c h =>
    intro s hs
    refine ⟨_, rfl, ?_⟩
    split at hs
    · obtain rfl := Except.ok.inj hs
      exact ⟨h.elementType, .rfl⟩
    · obtain ⟨_, -, hs⟩ := bind_eq_ok_iff.mp hs
      obtain rfl := Except.ok.inj hs
      refine ⟨h.elementType, ?_⟩
      dsimp only
      rw [← List.length_map]
      exact Shape.refines_ofRank _
  | ranked t extents concrete h =>
    dsimp only
    rw [h.length_eq]
    refine (covers_require id).bind fun _ => .pure ⟨rfl, .ranked ?_⟩
    rw [List.forall₂_map_left_iff, List.forall₂_map_right_iff]
    exact List.forall₂_same.mpr fun axis _ => forall₂_getD h (.unknown _) axis

theorem covers_targetExtent (h : concrete.Refines shape) {specialZero : Bool} {item : Int}
    {position : Nat} : Covers Extent.Refines (targetExtent shape specialZero item position)
      (targetExtent concrete specialZero item position) := by
  unfold targetExtent
  split
  · exact .pure .rfl
  · split
    · cases h with
      | unranked => exact fun e _ => ⟨_, rfl, .unknown e⟩
      | ranked h => exact covers_ofOption fun e he => forall₂_getElem? h position he
    · exact .pure .rfl

theorem targetExtent_wildcard {specialZero : Bool} : ∀ {target : List Int} {k : Nat}
    {extents : List Extent}, (target.zipIdx k).mapM (fun (item, position) =>
      targetExtent shape specialZero item position) = .ok extents →
    List.Forall₂ (fun item e => item = -1 → e = Extent.unknown) target extents
  | [], _, _, e => by
    obtain rfl := Except.ok.inj e
    exact .nil
  | item :: target, k, _, e => by
    rw [List.zipIdx_cons, List.mapM_cons] at e
    obtain ⟨x, hx, e⟩ := bind_eq_ok_iff.mp e
    obtain ⟨extents, hextents, e⟩ := bind_eq_ok_iff.mp e
    obtain rfl := Except.ok.inj e
    refine .cons (fun hitem => ?_) (targetExtent_wildcard hextents)
    unfold targetExtent at hx
    dsimp only at hx
    rw [if_pos hitem] at hx
    exact (Except.ok.inj hx).symm

theorem refines_fill {target : List Int} {extents concrete : List Extent} {size : Nat}
    (hw : List.Forall₂ (fun item e => item = -1 → e = Extent.unknown) target extents)
    (h : List.Forall₂ Extent.Refines concrete extents) :
    List.Forall₂ Extent.Refines
      ((target.zip concrete).map fun (item, e) => if item = -1 then .known size else e)
      extents := by
  induction hw generalizing concrete with
  | nil => exact .nil
  | cons hitem _ ih =>
    cases h with
    | cons hx h =>
      refine .cons ?_ (ih h)
      dsimp only
      split
      · rename_i hw
        rw [hitem hw]
        exact .unknown _
      · exact hx

theorem literalSizes?_of_refines {extents concrete : List Extent}
    (h : List.Forall₂ Extent.Refines concrete extents) {target : List Int} {sizes : List Nat}
    (hsizes : literalSizes? target extents = some sizes) :
    literalSizes? target concrete = some sizes := by
  unfold literalSizes? at *
  induction h generalizing target sizes with
  | nil => exact hsizes
  | @cons y x concrete extents hxy _ ih =>
    cases target with
    | nil => exact hsizes
    | cons item target =>
      rw [List.zip_cons_cons, List.filter_cons] at hsizes ⊢
      split at hsizes
      · rename_i hitem
        rw [if_pos hitem, List.mapM_cons]
        rw [List.mapM_cons] at hsizes
        obtain ⟨n, hn, hsizes⟩ := Option.bind_eq_some_iff.mp hsizes
        obtain ⟨rest, hrest, hsizes⟩ := Option.bind_eq_some_iff.mp hsizes
        exact Option.bind_eq_some_iff.mpr ⟨n, hxy.size? hn,
          Option.bind_eq_some_iff.mpr ⟨rest, ih hrest, hsizes⟩⟩
      · rename_i hitem
        rw [if_neg hitem]
        exact ih hsizes

theorem covers_literalCount {target : List Int} {extents concrete : List Extent}
    (h : List.Forall₂ Extent.Refines concrete extents) :
    Covers (fun _ _ => True) (literalCount target extents) (literalCount target concrete) := by
  intro known hknown
  cases hsizes : literalSizes? target extents with
  | none => exact ⟨none, by rw [literalCount, hsizes], trivial⟩
  | some sizes =>
    rw [literalCount, literalSizes?_of_refines h hsizes] at hknown
    exact ⟨known, by rw [literalCount, hsizes]; exact hknown, trivial⟩

theorem covers_reshape {target : List Int} {specialZero : Bool} (h : c.Refines s) :
    Covers Spec.Refines (reshape target specialZero s) (reshape target specialZero c) := by
  cases hcount : s.shape.elementCount? with
  | some count =>
    -- nothing was open
    obtain rfl : c = s := by
      obtain ⟨t, shape⟩ := s
      obtain ⟨u, concrete⟩ := c
      obtain ⟨htype, hshape⟩ := h
      rw [Spec.mk.injEq]
      exact ⟨htype, hshape.eq_of_elementCount? hcount⟩
    exact fun s hs => ⟨s, hs, .rfl⟩
  | none =>
    refine (covers_require id).bind fun _ => (covers_require id).bind fun _ => ?_
    intro out hout
    obtain ⟨concrete, hconcrete, hout⟩ := bind_eq_ok_iff.mp hout
    obtain ⟨extents, hextents, hrefine⟩ := Covers.mapM
      (List.forall₂_same.mpr fun _ _ => covers_targetExtent h.shape) concrete hconcrete
    obtain ⟨known', hknown', hout⟩ := bind_eq_ok_iff.mp hout
    obtain ⟨known, hknown, -⟩ := covers_literalCount hrefine known' hknown'
    refine ⟨⟨s.elementType, .ranked extents⟩, ?_, ?_⟩
    · rw [bind_eq_ok_iff]
      exact ⟨extents, hextents, bind_eq_ok_iff.mpr ⟨known, hknown, by rw [hcount]; rfl⟩⟩
    · split at hout
      · split at hout
        · obtain ⟨_, -, hout⟩ := bind_eq_ok_iff.mp hout
          obtain rfl := Except.ok.inj hout
          exact ⟨h.elementType, .ranked (refines_fill (targetExtent_wildcard hextents) hrefine)⟩
        · obtain ⟨_, -, hout⟩ := bind_eq_ok_iff.mp hout
          obtain rfl := Except.ok.inj hout
          exact ⟨h.elementType, .ranked hrefine⟩
      · obtain rfl := Except.ok.inj hout
        exact ⟨h.elementType, .ranked hrefine⟩

theorem covers_squeezeAxis {shape shape' : Shape} {extents concrete : List Extent}
    (h : List.Forall₂ Extent.Refines concrete extents) :
    Covers Eq (squeezeAxis shape extents axis) (squeezeAxis shape' concrete axis) := by
  unfold squeezeAxis
  rw [h.length_eq]
  refine covers_axisOf.bind ?_
  rintro _ i rfl
  refine (covers_require fun hone => ?_).bind fun _ => .pure rfl
  simp only [Bool.or_eq_true, beq_iff_eq] at hone ⊢
  rcases hone with hone | hone
  all_goals
    obtain ⟨e, he, hr⟩ := forall₂_getElem? h i hone
    cases hr <;> simp [he]

theorem covers_squeeze {axes : List Int} (h : c.Refines s) :
    Covers Spec.Refines (squeeze axes s) (squeeze axes c) := by
  cases h using Spec.Refines.byShape with
  | unranked t c h =>
    exact covers_unranked fun s hs => (elementType_squeeze hs).trans h.elementType
  | ranked t extents concrete h =>
    by_cases hopen : axes.isEmpty = true ∧ extents.all Extent.isKnown = false
    · have hs : squeeze axes ⟨t, .ranked extents⟩ = .ok ⟨t, .unranked⟩ := by
        simp [squeeze, hopen.1, hopen.2, pure, Except.pure]
      rw [hs]
      exact covers_unranked fun s hs => elementType_squeeze hs
    · unfold squeeze
      dsimp only
      split
      · rename_i haxes
        have hknown : extents.all Extent.isKnown = true := by simpa [haxes] using hopen
        obtain rfl := Shape.eq_of_refines_known h hknown
        exact fun s hs => ⟨s, hs, .rfl⟩
      · refine Covers.bind (.mapM (List.forall₂_same.mpr fun _ _ => covers_squeezeAxis h)) ?_
        intro positions positions' hpositions
        rw [List.forall₂_eq_eq_eq] at hpositions
        obtain rfl := hpositions
        exact .pure ⟨rfl, .ranked (forall₂_dropPositions h _)⟩

theorem covers_unsqueeze {axes : List Int} (h : c.Refines s) :
    Covers Spec.Refines (unsqueeze axes s) (unsqueeze axes c) := by
  cases h using Spec.Refines.byShape with
  | unranked t c h =>
    exact covers_unranked fun s hs => (elementType_unsqueeze hs).trans h.elementType
  | ranked t extents concrete h =>
    unfold unsqueeze
    dsimp only
    rw [h.length_eq]
    refine Covers.bind (R := Eq) (fun found hfound => ⟨found, hfound, rfl⟩) ?_
    rintro found _ rfl
    refine (covers_ofOption fun out hout => forall₂_interleave .rfl h hout).bind ?_
    exact fun hout => .pure ⟨rfl, .ranked hout⟩

end Inferred

end TensorGraph
