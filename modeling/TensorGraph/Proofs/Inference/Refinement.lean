import Mathlib.Data.List.Forall2
import TensorGraph.Proofs.Inference.Types

/-! # Refinement of specs

A spec refines another one if it has the same element type and all that the other one says of the
shape. Every standard rule is monotone: what it gives on refined inputs refines what it gives on
the inputs themselves, and where it fails on these, it fails on refined ones.
-/

namespace TensorGraph

section Lists

variable {α β γ δ : Type} {R : α → β → Prop} {Q : γ → δ → Prop}

theorem forall₂_zip {as : List α} {bs : List β} {cs : List γ} {ds : List δ}
    (h : List.Forall₂ R as bs) (h' : List.Forall₂ Q cs ds) :
    List.Forall₂ (fun x y => R x.1 y.1 ∧ Q x.2 y.2) (as.zip cs) (bs.zip ds) := by
  induction h generalizing cs ds with
  | nil => exact .nil
  | cons hab _ ih =>
    cases h' with
    | nil => exact .nil
    | cons hcd h' => exact .cons ⟨hab, hcd⟩ (ih h')

theorem forall₂_trans {S : β → γ → Prop} {T : α → γ → Prop} (h : ∀ {a b c}, R a b → S b c → T a c)
    {as : List α} {bs : List β} {cs : List γ} (hr : List.Forall₂ R as bs)
    (hs : List.Forall₂ S bs cs) : List.Forall₂ T as cs := by
  induction hr generalizing cs with
  | nil =>
    cases hs
    exact .nil
  | cons hab _ ih =>
    cases hs with
    | cons hbc hs => exact .cons (h hab hbc) (ih hs)

theorem forall₂_zipIdx {as : List α} {bs : List β} (h : List.Forall₂ R as bs) (k : Nat) :
    List.Forall₂ (fun x y => R x.1 y.1 ∧ x.2 = y.2) (as.zipIdx k) (bs.zipIdx k) := by
  induction h generalizing k with
  | nil => exact .nil
  | cons hab _ ih => exact .cons ⟨hab, rfl⟩ (ih (k + 1))

theorem forall₂_set {as : List α} {bs : List β} (h : List.Forall₂ R as bs) {a : α} {b : β}
    (hab : R a b) (i : Nat) : List.Forall₂ R (as.set i a) (bs.set i b) := by
  induction h generalizing i with
  | nil => exact .nil
  | cons hd htl ih =>
    cases i with
    | zero => exact .cons hab htl
    | succ i => exact .cons hd (ih i)

theorem forall₂_getD {as : List α} {bs : List β} (h : List.Forall₂ R as bs) {a : α} {b : β}
    (hab : R a b) (i : Nat) : R (as.getD i a) (bs.getD i b) := by
  induction h generalizing i with
  | nil => exact hab
  | cons hd _ ih =>
    cases i with
    | zero => exact hd
    | succ i => exact ih i

theorem forall₂_getElem? {as : List α} {bs : List β} (h : List.Forall₂ R as bs) (i : Nat) {a : α}
    (ha : as[i]? = some a) : ∃ b, bs[i]? = some b ∧ R a b := by
  induction h generalizing i with
  | nil => cases ha
  | cons hd _ ih =>
    cases i with
    | zero =>
      obtain rfl := Option.some.inj ha
      exact ⟨_, rfl, hd⟩
    | succ i => exact ih i ha

theorem forall₂_dropPositions {as : List α} {bs : List β} (h : List.Forall₂ R as bs)
    (positions : List Nat) :
    List.Forall₂ R (dropPositions positions as) (dropPositions positions bs) := by
  refine List.rel_filterMap ?_ (forall₂_zipIdx h 0)
  rintro ⟨a, i⟩ ⟨b, j⟩ ⟨hab, rfl⟩
  dsimp only
  split
  · exact .none
  · exact .some hab

theorem forall₂_interleave {flags : List Bool} {unit : α} {unit' : β} (hunit : R unit unit')
    {as out : List α} {bs : List β} (h : List.Forall₂ R as bs)
    (e : interleave unit flags as = some out) :
    ∃ out', interleave unit' flags bs = some out' ∧ List.Forall₂ R out out' := by
  induction flags generalizing as bs out with
  | nil =>
    obtain rfl := Option.some.inj e
    exact ⟨[], rfl, .nil⟩
  | cons flag flags ih =>
    cases flag with
    | true =>
      obtain ⟨rest, hrest, rfl⟩ := Option.map_eq_some_iff.mp e
      obtain ⟨rest', hrest', hr⟩ := ih h hrest
      exact ⟨unit' :: rest', congrArg (Option.map (unit' :: ·)) hrest', .cons hunit hr⟩
    | false =>
      cases h with
      | nil => cases e
      | @cons a b _ _ hab h =>
        obtain ⟨rest, hrest, rfl⟩ := Option.map_eq_some_iff.mp e
        obtain ⟨rest', hrest', hr⟩ := ih h hrest
        exact ⟨b :: rest', congrArg (Option.map (b :: ·)) hrest', .cons hab hr⟩

end Lists

/-! ### Refinement -/

inductive Extent.Refines : Extent → Extent → Prop
  | unknown (e : Extent) : Refines e .unknown
  | known (n : Nat) : Refines (.known n) (.known n)

inductive Shape.Refines : Shape → Shape → Prop
  | unranked (shape : Shape) : Refines shape .unranked
  | ranked {concrete extents : List Extent}
      (extents_refine : List.Forall₂ Extent.Refines concrete extents) :
      Refines (.ranked concrete) (.ranked extents)

/-- The same element type, and a shape in which some of what was open is known. -/
structure Spec.Refines (concrete spec : Spec) : Prop where
  elementType : concrete.elementType = spec.elementType
  shape : concrete.shape.Refines spec.shape

namespace Extent

variable {x y x' y' : Extent}

protected theorem Refines.rfl : {x : Extent} → x.Refines x
  | .known n => .known n
  | .unknown => .unknown _

theorem Refines.trans {z : Extent} (h : x.Refines y) (h' : y.Refines z) : x.Refines z := by
  cases h' with
  | unknown => exact .unknown x
  | known => exact h

theorem Refines.size? {n : Nat} (h : x'.Refines x) (hx : x.size? = some n) : x'.size? = some n := by
  cases h with
  | unknown => cases hx
  | known => exact hx

theorem refines_of_merge {z : Extent} (h : x.merge y = some z) : z.Refines x := by
  cases x with
  | unknown => exact .unknown z
  | known n => cases y <;> simp only [merge] at h <;> grind [Refines.known]

theorem merge_refines {z' : Extent} (hx : x'.Refines x) (hy : y'.Refines y)
    (hz : x'.merge y' = some z') : ∃ z, x.merge y = some z ∧ z'.Refines z := by
  cases hx with
  | unknown x' =>
    cases hy with
    | unknown y' => exact ⟨_, rfl, .unknown z'⟩
    | known n =>
      refine ⟨_, rfl, ?_⟩
      cases x' <;> simp only [merge] at hz <;> grind [Refines.known]
  | known m =>
    cases hy with
    | unknown y' =>
      refine ⟨_, rfl, ?_⟩
      cases y' <;> simp only [merge] at hz <;> grind [Refines.known]
    | known n => exact ⟨z', hz, .rfl⟩

end Extent

namespace Shape

variable {shape concrete : Shape} {extents : List Extent}

protected theorem Refines.rfl : {shape : Shape} → shape.Refines shape
  | .unranked => .unranked _
  | .ranked _ => .ranked (List.forall₂_same.mpr fun _ _ => .rfl)

theorem Refines.rank? {rank : Nat} (h : concrete.Refines shape) (hr : shape.rank? = some rank) :
    concrete.rank? = some rank := by
  cases h with
  | unranked => cases hr
  | ranked h =>
    obtain rfl := Option.some.inj hr
    exact congrArg some h.length_eq

/-- A shape of which the rank alone is known. -/
theorem refines_ofRank (extents : List Extent) :
    (ranked extents).Refines (.ofRank extents.length) := by
  refine .ranked ?_
  induction extents with
  | nil => exact .nil
  | cons e _ ih => exact .cons (.unknown e) ih

theorem eq_of_refines_known {extents concrete : List Extent}
    (h : List.Forall₂ Extent.Refines concrete extents)
    (hk : extents.all Extent.isKnown = true) : concrete = extents := by
  induction h with
  | nil => rfl
  | cons hx _ ih =>
    rw [List.all_cons, Bool.and_eq_true_iff] at hk
    cases hx with
    | unknown => cases hk.1
    | known => rw [ih hk.2]

theorem isKnown_of_sizes {extents : List Extent} {sizes : List Nat}
    (h : extents.mapM Extent.size? = some sizes) : extents.all Extent.isKnown = true := by
  rw [mapM_eq_some_iff] at h
  rw [List.all_eq_true]
  intro e he
  have hsize : e.size? ∈ sizes.map some := h ▸ List.mem_map_of_mem he
  obtain ⟨n, -, hn⟩ := List.mem_map.mp hsize
  cases e with
  | known => rfl
  | unknown => cases hn

/-- Nothing is open in a shape whose elements can be counted. -/
theorem Refines.eq_of_elementCount? {count : Nat} (h : concrete.Refines shape)
    (hc : shape.elementCount? = some count) : concrete = shape := by
  cases h with
  | unranked => cases hc
  | ranked h =>
    obtain ⟨sizes, hs, -⟩ := Option.bind_eq_some_iff.mp hc
    rw [eq_of_refines_known h (isKnown_of_sizes hs)]

end Shape

namespace Spec.Refines

protected theorem rfl {s : Spec} : s.Refines s := ⟨Eq.refl _, .rfl⟩

/-- Nothing is known of the shape, or the rank at least. -/
@[elab_as_elim]
theorem byShape {motive : (c s : Spec) → c.Refines s → Prop}
    (unranked : ∀ t c (h : c.Refines ⟨t, .unranked⟩), motive c ⟨t, .unranked⟩ h)
    (ranked : ∀ t extents concrete (h : List.Forall₂ Extent.Refines concrete extents),
      motive ⟨t, .ranked concrete⟩ ⟨t, .ranked extents⟩ ⟨Eq.refl t, .ranked h⟩)
    {c s : Spec} (h : c.Refines s) : motive c s h := by
  obtain ⟨t, shape⟩ := s
  obtain ⟨u, concrete⟩ := c
  obtain ⟨htype, hshape⟩ := h
  cases htype
  cases hshape with
  | unranked => exact unranked t ⟨t, concrete⟩ _
  | ranked h => exact ranked t _ _ h

end Spec.Refines

theorem Spec.Refines.trans {r c s : Spec} (h : r.Refines c) (h' : c.Refines s) : r.Refines s := by
  refine ⟨h.elementType.trans h'.elementType, ?_⟩
  obtain ⟨-, h⟩ := h
  obtain ⟨-, h'⟩ := h'
  generalize r.shape = x, c.shape = y, s.shape = z at h h'
  cases h' with
  | unranked => exact .unranked x
  | ranked h' =>
    cases h with
    | ranked h =>
      exact .ranked (forall₂_trans (R := Extent.Refines) (S := Extent.Refines) .trans h h')

/-! ### Computations on refined inputs -/

/-- When the second computation gives something, so does the first, and the results are related. -/
def Covers {ε ε' α α' : Type} (R : α' → α → Prop) (x : Except ε α) (y : Except ε' α') : Prop :=
  ∀ b, y = .ok b → ∃ a, x = .ok a ∧ R b a

namespace Covers

variable {ε ε' α α' γ γ' : Type} {R : α' → α → Prop} {Q : γ' → γ → Prop}
variable {x : Except ε α} {y : Except ε' α'}

theorem pure {a : α} {b : α'} (h : R b a) :
    Covers R (Pure.pure a : Except ε α) (Pure.pure b : Except ε' α') := by
  rintro _ ⟨⟩
  exact ⟨a, rfl, h⟩

theorem error {e : ε'} : Covers R x (.error e) := by
  rintro _ ⟨⟩

theorem bind {f : α → Except ε γ} {f' : α' → Except ε' γ'} (h : Covers R x y)
    (hf : ∀ {a b}, R b a → Covers Q (f a) (f' b)) : Covers Q (x >>= f) (y >>= f') := by
  intro c hc
  obtain ⟨b, hb, hc⟩ := bind_eq_ok_iff.mp hc
  obtain ⟨a, ha, hab⟩ := h b hb
  obtain ⟨d, hd, hcd⟩ := hf hab c hc
  exact ⟨d, bind_eq_ok_iff.mpr ⟨a, ha, hd⟩, hcd⟩

theorem map {f : α → γ} {f' : α' → γ'} (h : Covers R x y) (hf : ∀ {a b}, R b a → Q (f' b) (f a)) :
    Covers Q (x.map f) (y.map f') := by
  intro c hc
  cases y with
  | error e => cases hc
  | ok b =>
    obtain rfl := Except.ok.inj hc
    obtain ⟨a, rfl, hab⟩ := h b rfl
    exact ⟨f a, rfl, hf hab⟩

theorem exists_error {e : ε} (h : Covers R x y) (hx : x = .error e) : ∃ e', y = .error e' := by
  cases y with
  | error e' => exact ⟨e', rfl⟩
  | ok b =>
    obtain ⟨a, ha, -⟩ := h b rfl
    cases hx.symm.trans ha

theorem mapM {β β' : Type} {f : β → Except ε α} {f' : β' → Except ε' α'} {l : List β}
    {l' : List β'} (h : List.Forall₂ (fun b a => Covers R (f a) (f' b)) l' l) :
    Covers (List.Forall₂ R) (l.mapM f) (l'.mapM f') := by
  induction h with
  | nil => exact .pure .nil
  | cons hd _ ih =>
    rw [List.mapM_cons, List.mapM_cons]
    exact hd.bind fun hab => ih.bind fun htl => .pure (.cons hab htl)

theorem foldlM {β β' : Type} {f : α → β → Except ε α} {f' : α' → β' → Except ε' α'} {l : List β}
    {l' : List β'} {P : β' → β → Prop} (h : List.Forall₂ P l' l)
    (hf : ∀ {a b x y}, R b a → P y x → Covers R (f a x) (f' b y)) {a : α} {b : α'} (hab : R b a) :
    Covers R (l.foldlM f a) (l'.foldlM f' b) := by
  induction h generalizing a b with
  | nil => exact .pure hab
  | cons hxy _ ih =>
    rw [List.foldlM_cons, List.foldlM_cons]
    exact (hf hab hxy).bind ih

end Covers

namespace Inferred

variable {α α' : Type} {R : α' → α → Prop}

theorem covers_require {p q : Bool} {e e' : InferError} (h : q = true → p = true) :
    Covers (fun _ _ => True) (require p e) (require q e') := by
  intro _ hq
  exact ⟨(), require_eq_ok_iff.mpr (h (require_eq_ok_iff.mp hq)), trivial⟩

theorem covers_ofOption {x : Option α} {y : Option α'} {e e' : InferError}
    (h : ∀ b, y = some b → ∃ a, x = some a ∧ R b a) :
    Covers R (ofOption e x) (ofOption e' y) := by
  cases y with
  | none => exact .error
  | some b =>
    obtain ⟨a, rfl, hab⟩ := h b rfl
    exact .pure hab

theorem covers_axisOf {shape shape' : Shape} {rank : Nat} {axis : Int} :
    Covers Eq (axisOf shape rank axis) (axisOf shape' rank axis) :=
  covers_ofOption fun i hi => ⟨i, hi, rfl⟩

end Inferred

end TensorGraph
