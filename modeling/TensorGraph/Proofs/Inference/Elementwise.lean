import TensorGraph.Proofs.Inference.Refinement

/-! # Entry by entry on refined inputs

Broadcasting is monotone, and so are the rules of the operations that combine or change entries
one by one.
-/

namespace TensorGraph

variable {s c a a' b b' : Spec} {axis : Int}

/-! ### Broadcasting -/

theorem Extent.covers_broadcast {x x' y y' : Extent} (hx : x'.Refines x) (hy : y'.Refines y) :
    Covers Extent.Refines (x.broadcast y) (x'.broadcast y') := by
  intro e he
  cases hx with
  | unknown x' =>
    cases hy with
    | unknown y' => exact ⟨_, rfl, .unknown e⟩
    | known n =>
      refine ⟨_, rfl, ?_⟩
      split
      · exact .unknown e
      · cases x' <;> simp only [broadcast] at he <;> grind [Refines.known]
  | known m =>
    cases hy with
    | unknown y' =>
      refine ⟨_, rfl, ?_⟩
      split
      · exact .unknown e
      · cases y' <;> simp only [broadcast] at he <;> grind [Refines.known]
    | known n => exact ⟨e, he, .rfl⟩

theorem Shape.covers_broadcastExtents {as as' bs bs' : List Extent}
    (ha : List.Forall₂ Extent.Refines as' as) (hb : List.Forall₂ Extent.Refines bs' bs) :
    Covers (List.Forall₂ Extent.Refines) (broadcastExtents as bs) (broadcastExtents as' bs') := by
  have halign {l l' : List Extent} (h : List.Forall₂ Extent.Refines l' l) (rank : Nat) :
      List.Forall₂ Extent.Refines (alignRight (.known 1) rank l')
        (alignRight (.known 1) rank l) := by
    unfold alignRight
    rw [h.length_eq]
    exact List.rel_append (List.forall₂_same.mpr fun _ _ => .rfl) h
  unfold broadcastExtents
  rw [ha.length_eq, hb.length_eq]
  exact .mapM ((forall₂_zip (halign ha _) (halign hb _)).imp fun _ _ h =>
    Extent.covers_broadcast h.1 h.2)

theorem Shape.covers_broadcast {x x' y y' : Shape} (hx : x'.Refines x) (hy : y'.Refines y) :
    Covers Shape.Refines (x.broadcast y) (x'.broadcast y') := by
  cases hx with
  | unranked => exact fun e _ => ⟨_, rfl, .unranked e⟩
  | ranked hx =>
    cases hy with
    | unranked => exact fun e _ => ⟨_, rfl, .unranked e⟩
    | ranked hy => exact (covers_broadcastExtents hx hy).map .ranked

namespace Inferred

theorem covers_broadcast {x x' y y' : Shape} (hx : x'.Refines x) (hy : y'.Refines y) :
    Covers Shape.Refines (broadcast x y) (broadcast x' y') := by
  intro e he
  unfold broadcast at he
  split at he
  · rename_i shape hshape
    obtain rfl := Except.ok.inj he
    obtain ⟨shape', hshape', h⟩ := Shape.covers_broadcast hx hy shape hshape
    refine ⟨shape', ?_, h⟩
    unfold broadcast
    rw [hshape']
  · cases he

theorem covers_broadcast_ranked {as as' bs bs' : List Extent}
    (ha : List.Forall₂ Extent.Refines as' as) (hb : List.Forall₂ Extent.Refines bs' bs) :
    Covers (fun y x => ∃ es es', x = .ranked es ∧ y = .ranked es' ∧
        List.Forall₂ Extent.Refines es' es)
      (broadcast (.ranked as) (.ranked bs)) (broadcast (.ranked as') (.ranked bs')) := by
  have hranked {as bs : List Extent} {shape : Shape}
      (e : broadcast (.ranked as) (.ranked bs) = .ok shape) : ∃ es, shape = .ranked es := by
    unfold broadcast Shape.broadcast at e
    dsimp only at e
    cases h : Shape.broadcastExtents as bs with
    | error p => rw [h] at e; cases e
    | ok es => rw [h] at e; exact ⟨es, (Except.ok.inj e).symm⟩
  intro y hy
  obtain ⟨x, hx, h⟩ := covers_broadcast (.ranked ha) (.ranked hb) y hy
  obtain ⟨es, rfl⟩ := hranked hx
  obtain ⟨es', rfl⟩ := hranked hy
  cases h with
  | ranked h => exact ⟨_, hx, es, es', rfl, rfl, h⟩

/-- Nothing is claimed of a shape without a rank. -/
theorem covers_unranked {t : ElementType} {y : Inferred Spec}
    (h : ∀ s, y = .ok s → s.elementType = t) :
    Covers Spec.Refines (.ok ⟨t, .unranked⟩ : Inferred Spec) y :=
  fun s hs => ⟨_, rfl, h s hs, .unranked _⟩

theorem covers_requireType {p : ElementType → Bool} {e e' : InferError} (h : c.Refines s) :
    Covers (fun _ _ => True) (require (p s.elementType) e) (require (p c.elementType) e') :=
  covers_require fun hp => h.elementType ▸ hp

/-! ### Entry by entry -/

theorem covers_paired (ha : a'.Refines a) (hb : b'.Refines b) :
    Covers Shape.Refines (paired a b) (paired a' b') := by
  refine (covers_require fun h => ?_).bind fun _ => covers_broadcast ha.shape hb.shape
  rwa [← ha.elementType, ← hb.elementType]

theorem covers_arithmetic (ha : a'.Refines a) (hb : b'.Refines b) :
    Covers Spec.Refines (arithmetic a b) (arithmetic a' b') :=
  (covers_paired ha hb).bind fun h => .pure ⟨ha.elementType, h⟩

theorem covers_comparison (ha : a'.Refines a) (hb : b'.Refines b) :
    Covers Spec.Refines (comparison a b) (comparison a' b') :=
  (covers_paired ha hb).bind fun h => .pure ⟨rfl, h⟩

theorem covers_select (hc : c.Refines s) (ha : a'.Refines a) (hb : b'.Refines b) :
    Covers Spec.Refines (select s a b) (select c a' b') := by
  refine (covers_requireType (p := (· == .boolean)) hc).bind fun _ => ?_
  refine (covers_require fun h => ?_).bind fun _ => ?_
  · rwa [← ha.elementType, ← hb.elementType]
  refine (covers_broadcast hc.shape ha.shape).bind fun h => ?_
  exact (covers_broadcast h hb.shape).bind fun h => .pure ⟨ha.elementType, h⟩

theorem covers_softmax (h : c.Refines s) :
    Covers Spec.Refines (softmax axis s) (softmax axis c) := by
  refine (covers_requireType h).bind fun _ => ?_
  cases h using Spec.Refines.byShape with
  | unranked t c h =>
    refine covers_unranked fun s hs => ?_
    split at hs
    · exact Except.ok.inj hs ▸ h.elementType
    · obtain ⟨_, -, hs⟩ := bind_eq_ok_iff.mp hs
      exact Except.ok.inj hs ▸ h.elementType
  | ranked t extents concrete h =>
    dsimp only
    rw [h.length_eq]
    exact covers_axisOf.bind fun _ => .pure ⟨rfl, .ranked h⟩

theorem covers_quantize {scale : Float} {output : ElementType} (h : c.Refines s) :
    Covers Spec.Refines (quantize scale output s) (quantize scale output c) :=
  (covers_requireType h).bind fun _ => (covers_require id).bind fun _ =>
    (covers_require id).bind fun _ => .pure ⟨rfl, h.shape⟩

theorem covers_dequantize {scale : Float} (h : c.Refines s) :
    Covers Spec.Refines (dequantize scale s) (dequantize scale c) :=
  (covers_requireType h).bind fun _ => (covers_require id).bind fun _ => .pure ⟨rfl, h.shape⟩

end Inferred

end TensorGraph
