import TensorGraph.Proofs.Inference.Elementwise

/-! # Matrix products on refined inputs

The rule of matrix products is monotone. That of products with transposed weights fails on weights
of unknown rank, so for it only two successes can be compared.
-/

namespace TensorGraph

variable {s c a a' b b' : Spec} {concrete : Shape}

namespace Inferred

theorem matrixAxes?_refines {extents concrete batch' : List Extent} {rows' columns' : Extent}
    (h : List.Forall₂ Extent.Refines concrete extents)
    (e : matrixAxes? concrete = some (batch', rows', columns')) :
    ∃ batch rows columns, matrixAxes? extents = some (batch, rows, columns) ∧
      List.Forall₂ Extent.Refines batch' batch ∧ rows'.Refines rows ∧ columns'.Refines columns := by
  have hreverse := List.rel_reverse h
  unfold matrixAxes? at e ⊢
  split at e
  · rename_i columns₁ rows₁ batch₁ hc
    rw [hc] at hreverse
    obtain ⟨rfl, rfl, rfl⟩ : batch₁.reverse = batch' ∧ rows₁ = rows' ∧ columns₁ = columns' := by
      simpa using e
    cases hr : extents.reverse with
    | nil => rw [hr] at hreverse; cases hreverse
    | cons columns rest =>
      rw [hr] at hreverse
      obtain ⟨hcolumns, hrest⟩ := List.forall₂_cons.mp hreverse
      cases hrest with
      | cons hrows hbatch => exact ⟨_, _, _, rfl, List.rel_reverse hbatch, hrows, hcolumns⟩
  · cases e

theorem covers_requireContraction {x x' y y' : Extent} (hx : x'.Refines x) (hy : y'.Refines y) :
    Covers (fun _ _ => True) (requireContraction x y) (requireContraction x' y') := by
  refine covers_require fun h => ?_
  obtain ⟨z, hz⟩ := Option.isSome_iff_exists.mp h
  obtain ⟨w, hw, -⟩ := Extent.merge_refines hx hy hz
  rw [hw]
  rfl

theorem covers_matMul_unranked {left right : Bool} (ha : a'.Refines a) (hb : b'.Refines b)
    (h : a.shape = .unranked ∨ b.shape = .unranked) :
    Covers Spec.Refines (matMul left right a b) (matMul left right a' b') := by
  intro s hs
  have htype := elementType_matMul hs
  rw [ha.elementType, hb.elementType] at htype
  refine ⟨⟨s.elementType, .unranked⟩, bind_eq_ok_iff.mpr ⟨_, htype, ?_⟩, rfl, .unranked _⟩
  rcases h with h | h
  · rw [h]
    rfl
  · rw [h]
    cases a.shape <;> rfl

theorem covers_matMul {left right : Bool} (ha : a'.Refines a) (hb : b'.Refines b) :
    Covers Spec.Refines (matMul left right a b) (matMul left right a' b') := by
  cases ha using Spec.Refines.byShape with
  | unranked t a' ha => exact covers_matMul_unranked ha hb (.inl rfl)
  | ranked t as as' ha =>
  cases hb using Spec.Refines.byShape with
  | unranked u b' hb => exact covers_matMul_unranked ⟨rfl, .ranked ha⟩ hb (.inr rfl)
  | ranked u bs bs' hb =>
  refine Covers.bind (R := Eq) (fun t ht => ⟨t, ht, rfl⟩) ?_
  rintro _ t rfl
  dsimp only
  cases hA' : matrixAxes? as' with
  | none => exact .error
  | some axesA =>
  cases hB' : matrixAxes? bs' with
  | none => exact .error
  | some axesB =>
  obtain ⟨batchA, rowsA, columnsA, hA, hbatchA, hrowsA, hcolumnsA⟩ := matrixAxes?_refines ha hA'
  obtain ⟨batchB, rowsB, columnsB, hB, hbatchB, hrowsB, hcolumnsB⟩ := matrixAxes?_refines hb hB'
  rw [hA, hB]
  dsimp only
  refine (covers_requireContraction ?_ ?_).bind fun _ => ?_
  · cases left
    exacts [hcolumnsA, hrowsA]
  · cases right
    exacts [hrowsB, hcolumnsB]
  refine (covers_broadcast_ranked hbatchA hbatchB).bind ?_
  rintro _ _ ⟨batch, batch', rfl, rfl, hbatch⟩
  refine .pure ⟨rfl, .ranked (List.rel_append hbatch (.cons ?_ (.cons ?_ .nil)))⟩
  · cases left
    exacts [hrowsA, hcolumnsA]
  · cases right
    exacts [hcolumnsB, hrowsB]

/-! ### Transposed weights -/

theorem refines_weights {channels inner : Extent}
    (h : concrete.Refines (.ranked [channels, inner])) :
    ∃ channels' inner', channels'.Refines channels ∧ concrete = .ranked [channels', inner'] := by
  cases h with
  | ranked h =>
    obtain ⟨channels', _, hchannels, hrest, rfl⟩ := List.forall₂_cons_right_iff.mp h
    obtain ⟨inner', _, -, hnil, rfl⟩ := List.forall₂_cons_right_iff.mp hrest
    obtain rfl := List.forall₂_nil_right_iff.mp hnil
    exact ⟨channels', inner', hchannels, rfl⟩

/-- Weights of unknown rank are refused, so there is nothing to compare unless both succeed. -/
theorem refines_fullyConnected {bias bias' : Option Spec} (ha : a'.Refines a) (hb : b'.Refines b)
    (e : fullyConnected a b bias = .ok s) (e' : fullyConnected a' b' bias' = .ok c) :
    c.Refines s := by
  have htype : c.elementType = s.elementType := by
    have h := elementType_fullyConnected e
    have h' := elementType_fullyConnected e'
    rw [ha.elementType, hb.elementType, h] at h'
    exact (Except.ok.inj h').symm
  refine ⟨htype, ?_⟩
  obtain ⟨t, -, e⟩ := bind_eq_ok_iff.mp e
  obtain ⟨t', -, e'⟩ := bind_eq_ok_iff.mp e'
  obtain ⟨u, weights⟩ := b
  obtain ⟨channels, inner, rfl⟩ : ∃ channels inner, weights = .ranked [channels, inner] := by
    dsimp only at e
    split at e
    · cases e
    · exact ⟨_, _, rfl⟩
    · cases e
  obtain ⟨u', weights'⟩ := b'
  obtain ⟨channels', inner', hchannels, rfl⟩ := refines_weights hb.shape
  obtain ⟨_, -, hs⟩ := bind_eq_ok_iff.mp e
  obtain ⟨_, -, hc⟩ := bind_eq_ok_iff.mp e'
  cases ha using Spec.Refines.byShape with
  | unranked =>
    obtain rfl := Except.ok.inj hs
    exact .unranked _
  | ranked t as as' ha =>
    obtain ⟨_, -, hs⟩ := bind_eq_ok_iff.mp hs
    obtain ⟨_, -, hs⟩ := bind_eq_ok_iff.mp hs
    obtain ⟨_, -, hc⟩ := bind_eq_ok_iff.mp hc
    obtain ⟨_, -, hc⟩ := bind_eq_ok_iff.mp hc
    obtain rfl := Except.ok.inj hs
    obtain rfl := Except.ok.inj hc
    refine .ranked (List.rel_append ?_ (.cons hchannels .nil))
    rw [List.dropLast_eq_take, List.dropLast_eq_take, ha.length_eq]
    exact List.forall₂_take _ ha

end Inferred

end TensorGraph
