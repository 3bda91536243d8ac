import TensorGraph.Proofs.Inference.Agreement

/-! # Folding out of range

Inference multiplies sizes for a reshape only. Folding does so more often: for the strides of its
operands, and to count the entries that come out. So there are operations that inference accepts
and that overflow when they are folded. Apart from these, folding and inference agree.
-/

namespace TensorGraph

variable {t u a b c : Tensor} {sizes positions perm : List Nat} {target axes : List Int}
variable {specialZero : Bool} {s s' : Spec}

/-! ### Inference in range -/

namespace Inferred

section Rules

variable {α : Type} {e : InferError}

theorem require_ne_overflow {condition : Bool} (he : e ≠ .overflow) :
    require condition e ≠ .error .overflow := by
  cases condition
  · exact fun h => he (Except.error.inj h)
  · exact nofun

theorem ofOption_ne_overflow {o : Option α} (he : e ≠ .overflow) :
    ofOption e o ≠ .error .overflow := by
  cases o
  · exact fun h => he (Except.error.inj h)
  · exact nofun

end Rules

theorem singleton_eq_overflow_iff {x : Inferred Spec} :
    (x >>= fun s => pure [s] : Inferred (List Spec)) = .error .overflow ↔
      x = .error .overflow := by
  refine bind_eq_error_iff.trans (or_iff_left ?_)
  rintro ⟨s, -, h⟩
  cases h

theorem arithmetic_ne_overflow : arithmetic s s' ≠ .error .overflow := by
  refine bind_ne_error (bind_ne_error (require_ne_overflow nofun) fun _ _ => ?_) fun _ _ => nofun
  unfold Inferred.broadcast
  split <;> exact nofun

theorem transpose_ne_overflow : transpose perm s ≠ .error .overflow := by
  refine bind_ne_error (require_ne_overflow nofun) fun _ _ => ?_
  split
  · exact nofun
  · exact bind_ne_error (require_ne_overflow nofun) fun _ _ => nofun

theorem squeeze_ne_overflow : squeeze axes s ≠ .error .overflow := by
  unfold squeeze
  split
  · exact nofun
  · split
    · split <;> exact nofun
    · refine bind_ne_error (mapM_ne_error fun _ _ => ?_) fun _ _ => nofun
      refine bind_ne_error (ofOption_ne_overflow nofun) fun _ _ => ?_
      exact bind_ne_error (require_ne_overflow nofun) fun _ _ => nofun

theorem newAxes_ne_overflow {rank : Nat} : ∀ {axes : List Int} {found : List Nat},
    newAxes rank found axes ≠ .error .overflow
  | [], _ => nofun
  | _ :: _, _ => bind_ne_error (ofOption_ne_overflow nofun) fun _ _ =>
    bind_ne_error (require_ne_overflow nofun) fun _ _ => newAxes_ne_overflow

theorem unsqueeze_ne_overflow : unsqueeze axes s ≠ .error .overflow := by
  unfold unsqueeze
  split
  · exact nofun
  · refine bind_ne_error newAxes_ne_overflow fun _ _ => ?_
    exact bind_ne_error (ofOption_ne_overflow nofun) fun _ _ => nofun

theorem targetExtent_ne_overflow {shape : Shape} {item : Int} {i : Nat} :
    targetExtent shape specialZero item i ≠ .error .overflow := by
  unfold targetExtent
  split
  · exact nofun
  · split
    · split
      · exact nofun
      · exact ofOption_ne_overflow nofun
    · exact nofun

theorem targetExtent_congr {shape shape' : Shape} {item : Int} {i : Nat}
    (h : specialZero = true → item ≠ 0) :
    targetExtent shape specialZero item i = targetExtent shape' false item i := by
  unfold targetExtent
  cases specialZero with
  | false => simp
  | true => simp [h rfl]

theorem targetExtents_congr {shape shape' : Shape} {extents : List Extent}
    (hself : SelfContained target specialZero)
    (h : target.zipIdx.mapM (fun x => targetExtent shape specialZero x.1 x.2) = .ok extents) :
    target.zipIdx.mapM (fun x => targetExtent shape' false x.1 x.2) = .ok extents := by
  have hitems : (target.zipIdx.map fun x => targetExtent shape' false x.1 x.2) =
      target.zipIdx.map fun x => targetExtent shape specialZero x.1 x.2 := by
    refine List.map_congr_left fun x hx => (targetExtent_congr fun hz he => ?_).symm
    exact hself hz (he ▸ List.fst_mem_of_mem_zipIdx hx)
  have hmapM := congrArg (List.mapM id) hitems
  rw [List.mapM_map, List.mapM_map] at hmapM
  exact hmapM.trans h

/-- A target of which no item is read off the input overflows on all inputs or on none. -/
theorem reshape_ne_overflow {out : Spec} (hself : SelfContained target specialZero)
    (h : reshape target specialZero s = .ok out) : reshape target false s' ≠ .error .overflow := by
  obtain ⟨_, -, h⟩ := bind_eq_ok_iff.mp h
  obtain ⟨_, -, h⟩ := bind_eq_ok_iff.mp h
  obtain ⟨extents, hextents, h⟩ := bind_eq_ok_iff.mp h
  obtain ⟨known, hknown, -⟩ := bind_eq_ok_iff.mp h
  have hsame : target.zipIdx.mapM (fun x => targetExtent s'.shape false x.1 x.2) = .ok extents :=
    targetExtents_congr hself hextents
  refine bind_ne_error (require_ne_overflow nofun) fun _ _ => ?_
  refine bind_ne_error (require_ne_overflow nofun) fun _ _ => ?_
  refine bind_ne_error (hsame ▸ ok_ne_error) fun extents' hextents' => ?_
  obtain rfl := Except.ok.inj (hsame.symm.trans hextents')
  rw [hknown]
  refine bind_ne_error ok_ne_error fun _ _ => ?_
  split
  · split <;> exact bind_ne_error (require_ne_overflow nofun) fun _ _ => ok_ne_error
  · exact ok_ne_error

/-- A reshape of a tensor that can be counted overflows if its target cannot be counted. -/
theorem reshape_eq_overflow_iff (ht : t.Counted) :
    reshape target specialZero t.spec = .error .overflow ↔
      ¬ t.ReshapeFits target specialZero := by
  constructor
  · intro h hfits
    refine absurd h (bind_ne_error (require_ne_overflow nofun) fun _ hone => ?_)
    refine bind_ne_error (require_ne_overflow nofun) fun _ hitems => ?_
    refine bind_ne_error (mapM_ne_error fun _ _ => targetExtent_ne_overflow)
      fun extents hextents => ?_
    obtain ⟨literal, hmapM⟩ := exists_targetSizes? hitems hextents
    have hone := of_decide_eq_true (require_eq_ok_iff.mp hone)
    obtain ⟨product, hproduct⟩ := Option.isSome_iff_exists.mp (hfits.2 hone literal hmapM)
    obtain rfl : target.zipWith itemExtent literal = extents :=
      Except.ok.inj ((targetExtents_ofSizes hmapM).symm.trans hextents)
    rw [(literal_of_mapM hmapM).literalCount, hproduct]
    refine bind_ne_error nofun fun _ _ => ?_
    split
    · split <;> exact bind_ne_error (require_ne_overflow nofun) fun _ _ => nofun
    · exact nofun
  · intro h
    have hcountable : IsCountable t.sizes := Tensor.counted_iff.mp ht
    simp only [Tensor.ReshapeFits, hcountable, true_and, not_forall] at h
    obtain ⟨hone, literal, hmapM, hnot⟩ := h
    have hliteral := literal_of_mapM hmapM
    have hnone : boundedProduct literal = none := Option.not_isSome_iff_eq_none.mp hnot
    have hcount : literalCount target (target.zipWith itemExtent literal) = .error .overflow := by
      rw [hliteral.literalCount, hnone]
      rfl
    refine bind_eq_error_iff.mpr (.inr ⟨(), require_eq_ok_iff.mpr (decide_eq_true hone), ?_⟩)
    refine bind_eq_error_iff.mpr (.inr ⟨(), require_eq_ok_iff.mpr hliteral.all_le, ?_⟩)
    refine bind_eq_error_iff.mpr (.inr ⟨_, targetExtents_ofSizes hmapM, ?_⟩)
    exact bind_eq_error_iff.mpr (.inl hcount)

end Inferred

/-! ### Products that only folding takes -/

/-- A product out of range: a stride of an operand, or the number of entries of these sizes. -/
def Primitive.Overruns (p : Primitive) (operands : List Tensor) (sizes : List Nat) : Prop :=
  match p with
  | add | subtract | multiply => (∃ t ∈ operands, ¬ IsStrided t.sizes) ∨ ¬ IsCountable sizes
  | transpose _ => ∃ t ∈ operands, ¬ IsStrided t.sizes
  | _ => False

variable {f : Float → Float → Float} {p : Primitive} {operands : List Tensor} {specs : List Spec}

theorem Tensor.sizes_of_zipWith? (h : a.zipWith? f b = some c) :
    a.elementType = b.elementType ∧ broadcastSizes a.sizes b.sizes = some c.sizes := by
  unfold Tensor.zipWith? at h
  obtain ⟨helement, h⟩ := Option.ite_none_right_eq_some.mp h
  obtain ⟨sizes, hsizes, rfl⟩ := Option.map_eq_some_iff.mp h
  exact ⟨helement, hsizes⟩

theorem Tensor.exists_zipWith?_of_not_fits (h : ¬ a.ZipFits b) : ∃ c, a.zipWith? f b = some c := by
  simp only [Tensor.ZipFits, not_forall] at h
  obtain ⟨helement, sizes, hsizes, -⟩ := h
  unfold Tensor.zipWith?
  rw [if_pos helement, Option.mem_def.mp hsizes]
  exact ⟨_, rfl⟩

namespace Primitive

theorem foldFits_iff (hk : p.kind ≠ .reshape) (h : p.fold? operands = some c) :
    p.foldFits operands = true ↔ ¬ p.Overruns operands c.sizes := by
  have hzip {f : Float → Float → Float} {a b : Tensor} (h : a.zipWith? f b = some c) :
      decide (a.ZipFits b) = true ↔
        ¬ ((∃ t ∈ [a, b], ¬ IsStrided t.sizes) ∨ ¬ IsCountable c.sizes) := by
    obtain ⟨helement, hsizes⟩ := Tensor.sizes_of_zipWith? h
    simp [Tensor.ZipFits, helement, hsizes, and_assoc]
  unfold fold? at h
  split at h
  · exact hzip h
  · exact hzip h
  · exact hzip h
  · exact absurd rfl hk
  · rename_i perm t
    obtain ⟨hlen, hperm, -⟩ := Tensor.transpose?_eq_some_iff.mp h
    show decide (t.TransposeFits perm) = true ↔ ¬ ∃ u ∈ [t], ¬ IsStrided u.sizes
    simp [Tensor.TransposeFits, hlen, hperm]
  · exact ⟨fun _ => not_false, fun _ => rfl⟩
  · exact ⟨fun _ => not_false, fun _ => rfl⟩
  · exact ⟨fun _ => not_false, fun _ => rfl⟩
  · cases h

theorem exists_fold?_of_not_fits (hk : p.kind ≠ .reshape) (h : p.foldFits operands = false) :
    ∃ c, p.fold? operands = some c := by
  unfold foldFits at h
  split at h
  · exact Tensor.exists_zipWith?_of_not_fits (of_decide_eq_false h)
  · exact Tensor.exists_zipWith?_of_not_fits (of_decide_eq_false h)
  · exact Tensor.exists_zipWith?_of_not_fits (of_decide_eq_false h)
  · exact absurd rfl hk
  · have hnot := of_decide_eq_false h
    simp only [Tensor.TransposeFits, Classical.not_imp] at hnot
    exact ⟨_, Tensor.transpose?_eq_some_iff.mpr ⟨hnot.1.1, hnot.1.2, rfl⟩⟩
  · cases h

end Primitive

/-! ### Results that can be counted -/

theorem isCountable_resolveTarget? (hsizes : IsCountable sizes)
    (hfits : ∀ literal ∈ targetSizes? sizes target specialZero, IsCountable literal)
    (h : resolveTarget? sizes target specialZero = some positions) : IsCountable positions := by
  have hcount := Inferred.entryCount_resolveTarget? h
  obtain ⟨literal, hmapM, ⟨-, rfl, -⟩ | ⟨-, -, -, he⟩⟩ := Inferred.resolveTarget?_eq_some h
  · exact hfits _ hmapM
  · by_cases hzero : entryCount sizes = 0
    · refine (hfits literal hmapM).mono ?_
      rw [he, hzero, Nat.zero_div]
      refine (Inferred.literal_of_mapM hmapM).rec .nil fun {item n _ _} hitem _ ih => ?_
      refine .cons ?_ ih
      dsimp only
      split
      · exact Nat.zero_le n
      · exact le_rfl
    · obtain ⟨count, hproduct⟩ := Option.isSome_iff_exists.mp hsizes
      rw [← hcount] at hzero
      refine isCountable_of_pos hzero ?_
      rw [hcount, ← boundedProduct_eq_some hproduct]
      exact boundedProduct_lt hproduct

theorem Tensor.size_transpose? (h : t.transpose? perm = some u) : u.data.size = t.data.size := by
  obtain ⟨hlen, hperm, rfl⟩ := Tensor.transpose?_eq_some_iff.mp h
  rw [Tensor.size_data, t.size_data]
  exact entryCount_permuted hperm hlen

theorem Primitive.counted_of_fold (hcounted : ∀ t ∈ operands, t.Counted)
    (h : p.fold operands = .ok c) : c.Counted ∨ p.kind = .transpose ∧ c.data.size = 0 := by
  obtain ⟨hfits, hfold⟩ := fold_eq_ok_iff.mp h
  have hzip {f : Float → Float → Float} {a b : Tensor} (h : a.zipWith? f b = some c)
      (hfits : decide (a.ZipFits b) = true) : c.Counted := by
    obtain ⟨helement, hsizes⟩ := Tensor.sizes_of_zipWith? h
    exact Tensor.counted_iff.mpr ((of_decide_eq_true hfits) helement _ hsizes).2.2
  have hsame {t : Tensor} (ht : t ∈ operands)
      (hsizes : c.sizes.filter (· ≠ 1) = t.sizes.filter (· ≠ 1)) : c.Counted :=
    Tensor.counted_iff.mpr ((Tensor.counted_iff.mp (hcounted t ht)).congr hsizes)
  unfold fold? at hfold
  split at hfold
  · exact .inl (hzip hfold hfits)
  · exact .inl (hzip hfold hfits)
  · exact .inl (hzip hfold hfits)
  · obtain ⟨hsizes, -⟩ := Tensor.reshape?_eq_some_iff.mp hfold
    obtain ⟨hcountable, hliteral⟩ := of_decide_eq_true hfits
    refine .inl (Tensor.counted_iff.mpr (isCountable_resolveTarget? hcountable (hliteral ?_) hsizes))
    obtain ⟨_, -, ⟨hnot, -⟩ | ⟨hone, -⟩⟩ := Inferred.resolveTarget?_eq_some hsizes
    · exact (List.count_eq_zero.mpr hnot).trans_le (Nat.zero_le 1)
    · exact hone.le
  · have hsize := Tensor.size_transpose? hfold
    by_cases hzero : c.data.size = 0
    · exact .inr ⟨rfl, hzero⟩
    · exact .inl ((hcounted _ List.mem_cons_self).of_size (hsize ▸ hzero) hsize)
  · obtain ⟨positions, hpositions, hfold⟩ := Option.bind_eq_some_iff.mp hfold
    obtain ⟨-, hsizes, -⟩ := Tensor.withSizes?_eq_some_iff.mp hfold
    refine .inl (hsame List.mem_cons_self ?_)
    rw [hsizes, Inferred.filter_dropPositions (Inferred.getElem?_of_squeezePositions? hpositions)]
  · obtain ⟨positions, hpositions, hfold⟩ := Option.bind_eq_some_iff.mp hfold
    obtain ⟨out, hout, hfold⟩ := Option.bind_eq_some_iff.mp hfold
    obtain ⟨-, hsizes, -⟩ := Tensor.withSizes?_eq_some_iff.mp hfold
    obtain ⟨out', hout', hfilter⟩ := Inferred.exists_unsqueezed hpositions
    obtain rfl := Option.some.inj (hout.symm.trans hout')
    exact .inl (hsame List.mem_cons_self (hsizes ▸ hfilter))
  · obtain rfl := Option.some.inj hfold
    exact .inl (hsame List.mem_cons_self rfl)
  · cases hfold

/-! ### Agreement -/

open CapabilityTable

theorem GraphError.ofInference_eq_overflow_iff {kind : Kind} {e : InferError} :
    GraphError.ofInference kind e = .overflow ↔ e = .overflow := by
  cases e <;> simp [GraphError.ofInference]

theorem CapabilityTable.infer_eq_overflow_iff {given : List Spec} :
    standard.infer (.primitive p) given = .error .overflow ↔
      (Capability.standard p.kind).arity.accepts given.length = true ∧
        (Capability.standard p.kind).rule (.primitive p) given = .error .overflow := by
  simp only [CapabilityTable.infer, CapabilityTable.standard, Operation.kind]
  split
  · rename_i harity
    cases hrule : (Capability.standard p.kind).rule (.primitive p) given with
    | ok outputs => simp
    | error e => simp [harity, GraphError.ofInference_eq_overflow_iff]
  · rename_i harity
    simp [harity]

namespace Primitive

variable {given : List Spec}

theorem infer_first_ne_overflow {rule : Primitive → Option (Spec → Inferred Spec)}
    {f : Spec → Inferred Spec}
    (hc : Capability.standard p.kind = ⟨.exactly 1, Rule.ofFirst rule⟩) (hf : rule p = some f)
    (hne : ∀ s, f s ≠ .error .overflow) :
    standard.infer (.primitive p) given ≠ .error .overflow := by
  intro h
  obtain ⟨harity, hrule⟩ := infer_eq_overflow_iff.mp h
  rw [hc] at harity hrule
  obtain ⟨s, rfl⟩ := List.length_eq_one_iff.mp (Operation.accepts_exactly harity)
  simp only [Rule.ofFirst, hf] at hrule
  exact hne s (Inferred.singleton_eq_overflow_iff.mp hrule)

theorem infer_arithmetic_ne_overflow
    (hc : Capability.standard p.kind = ⟨.exactly 2, Rule.arithmetic⟩) :
    standard.infer (.primitive p) given ≠ .error .overflow := by
  intro h
  obtain ⟨harity, hrule⟩ := infer_eq_overflow_iff.mp h
  rw [hc] at harity hrule
  obtain ⟨a, b, rfl⟩ := List.length_eq_two.mp (Operation.accepts_exactly harity)
  exact Inferred.arithmetic_ne_overflow (Inferred.singleton_eq_overflow_iff.mp hrule)

theorem infer_ne_overflow (hp : p.kind ∈ ConstantFolding.foldable) (hk : p.kind ≠ .reshape) :
    standard.infer (.primitive p) given ≠ .error .overflow := by
  cases p with
  | add => exact infer_arithmetic_ne_overflow rfl
  | subtract => exact infer_arithmetic_ne_overflow rfl
  | multiply => exact infer_arithmetic_ne_overflow rfl
  | reshape => exact absurd rfl hk
  | transpose perm => exact infer_first_ne_overflow rfl rfl fun _ => Inferred.transpose_ne_overflow
  | squeeze axes => exact infer_first_ne_overflow rfl rfl fun _ => Inferred.squeeze_ne_overflow
  | unsqueeze axes => exact infer_first_ne_overflow rfl rfl fun _ => Inferred.unsqueeze_ne_overflow
  | convert t => exact infer_first_ne_overflow rfl rfl fun _ => nofun
  | _ => simp [Primitive.kind, ConstantFolding.foldable] at hp

theorem infer_reshape_eq_overflow_iff (hk : p.kind = .reshape)
    (hcounted : ∀ t ∈ operands, t.Counted) :
    standard.infer (.primitive p) (operands.map Tensor.spec) = .error .overflow ↔
      p.foldFits operands = false := by
  obtain ⟨target, specialZero, rfl⟩ : ∃ target specialZero, p = .reshape target specialZero := by
    cases p <;> first | exact ⟨_, _, rfl⟩ | cases hk
  rw [infer_eq_overflow_iff]
  match operands with
  | [] => exact ⟨fun h => absurd (Operation.accepts_exactly h.1) nofun, nofun⟩
  | [t] =>
    refine (and_iff_right rfl).trans (Inferred.singleton_eq_overflow_iff.trans ?_)
    rw [Inferred.reshape_eq_overflow_iff (hcounted t List.mem_cons_self)]
    exact decide_eq_false_iff_not.symm
  | _ :: _ :: _ => exact ⟨fun h => absurd (Operation.accepts_exactly h.1) nofun, nofun⟩

section Counted

variable (hp : p.kind ∈ ConstantFolding.foldable) (hcounted : ∀ t ∈ operands, t.Counted)
include hp hcounted

theorem infer_eq_of_fold? (h : p.fold? operands = some c)
    (hfits : p.kind = .reshape → p.foldFits operands = true) :
    standard.infer (.primitive p) (operands.map Tensor.spec) = .ok [c.spec] := by
  obtain ⟨s, hs, -⟩ := infer_of_fold? h hfits
  obtain ⟨c', hc', he⟩ := exists_fold? hp hcounted hs
  obtain rfl := Option.some.inj (h.symm.trans hc')
  rw [hs, he]

theorem fold_overflows_iff : p.fold operands = .error .overflow ↔
    standard.infer (.primitive p) (operands.map Tensor.spec) = .error .overflow ∨
    ∃ type sizes, standard.infer (.primitive p) (operands.map Tensor.spec) =
      .ok [⟨type, .ofSizes sizes⟩] ∧ p.Overruns operands sizes := by
  rw [fold_eq_overflow_iff]
  by_cases hk : p.kind = .reshape
  · rw [infer_reshape_eq_overflow_iff hk hcounted, or_iff_left]
    rintro ⟨type, sizes, -, hover⟩
    cases p <;> first | exact hover | cases hk
  · rw [or_iff_right (infer_ne_overflow hp hk)]
    constructor
    · intro hnot
      obtain ⟨c, hc⟩ := exists_fold?_of_not_fits hk hnot
      refine ⟨c.elementType, c.sizes, infer_eq_of_fold? hp hcounted hc fun h => absurd h hk, ?_⟩
      by_contra hin
      exact Bool.false_ne_true (hnot.symm.trans ((foldFits_iff hk hc).mpr hin))
    · rintro ⟨type, sizes, hinfer, hover⟩
      obtain ⟨c, hc, he⟩ := exists_fold? hp hcounted hinfer
      have hsizes : sizes.map Extent.known = c.sizes.map Extent.known :=
        Shape.ranked.inj (congrArg Spec.shape (List.cons.inj he).1)
      obtain rfl := List.map_injective_iff.mpr (fun _ _ => Extent.known.inj) hsizes
      exact Bool.eq_false_of_not_eq_true fun hfits => (foldFits_iff hk hc).mp hfits hover

theorem fold_declines_iff : p.fold operands = .error .declined ↔
    ∃ e ≠ .overflow, standard.infer (.primitive p) (operands.map Tensor.spec) = .error e := by
  constructor
  · intro h
    obtain ⟨-, hnone⟩ := fold_eq_declined_iff.mp h
    cases hinfer : standard.infer (.primitive p) (operands.map Tensor.spec) with
    | ok specs =>
      obtain ⟨c, hc, -⟩ := exists_fold? hp hcounted hinfer
      cases hnone.symm.trans hc
    | error e =>
      refine ⟨e, ?_, rfl⟩
      rintro rfl
      cases h.symm.trans ((fold_overflows_iff hp hcounted).mpr (.inl hinfer))
  · rintro ⟨e, hne, hinfer⟩
    match h : p.fold operands with
    | .error .declined => rfl
    | .error .overflow =>
      rcases (fold_overflows_iff hp hcounted).mp h with hover | ⟨_, _, hok, -⟩
      · exact absurd (Except.error.inj (hinfer.symm.trans hover)) hne
      · cases hinfer.symm.trans hok
    | .ok c =>
      obtain ⟨hfits, hfold⟩ := fold_eq_ok_iff.mp h
      cases hinfer.symm.trans (infer_eq_of_fold? hp hcounted hfold fun _ => hfits)

end Counted

end Primitive

/-- Folding and inference on constants that can be counted. What is folded has the spec that is
inferred, and can be counted again if it is no transpose without entries. Folding is declined where
inference fails. It overflows where inference does, and on a product that only folding takes. -/
theorem folds_iff_infers (hp : p.kind ∈ ConstantFolding.foldable)
    (hcounted : ∀ t ∈ operands, t.Counted) :
    (∀ c, p.fold operands = .ok c →
      standard.infer (.primitive p) (operands.map Tensor.spec) =
        .ok [⟨c.elementType, .ofSizes c.sizes⟩] ∧
      (c.Counted ∨ p.kind = .transpose ∧ c.data.size = 0)) ∧
    (p.fold operands = .error .declined ↔
      ∃ e ≠ .overflow, standard.infer (.primitive p) (operands.map Tensor.spec) = .error e) ∧
    (p.fold operands = .error .overflow ↔
      standard.infer (.primitive p) (operands.map Tensor.spec) = .error .overflow ∨
      ∃ type sizes, standard.infer (.primitive p) (operands.map Tensor.spec) =
        .ok [⟨type, .ofSizes sizes⟩] ∧ p.Overruns operands sizes) := by
  refine ⟨fun c hc => ⟨?_, Primitive.counted_of_fold hcounted hc⟩,
    Primitive.fold_declines_iff hp hcounted, Primitive.fold_overflows_iff hp hcounted⟩
  obtain ⟨hfits, hfold⟩ := Primitive.fold_eq_ok_iff.mp hc
  exact Primitive.infer_eq_of_fold? hp hcounted hfold fun _ => hfits

/-- A row of six is folded into two columns, with the open item inferred. -/
theorem folds_reshape_open :
    Kind.reshape ∈ ConstantFolding.foldable ∧ (Tensor.splat .f32 [1, 6] 1).Counted ∧
    ∃ c, (Primitive.reshape [-1, 2] false).fold [.splat .f32 [1, 6] 1] = .ok c ∧
      standard.infer (.primitive (.reshape [-1, 2] false)) [⟨.f32, .ofSizes [1, 6]⟩] =
        .ok [⟨c.elementType, .ofSizes c.sizes⟩] ∧ c.Counted := by
  have hp : Kind.reshape ∈ ConstantFolding.foldable := by decide
  have hcounted : (Tensor.splat .f32 [1, 6] 1).Counted := by rfl
  have hall : ∀ t ∈ [Tensor.splat .f32 [1, 6] 1], t.Counted :=
    List.forall_mem_singleton.mpr hcounted
  obtain ⟨hok, hdeclined, hoverflow⟩ := folds_iff_infers (p := .reshape [-1, 2] false) hp hall
  obtain ⟨c, hc⟩ : ∃ c, (Primitive.reshape [-1, 2] false).fold [.splat .f32 [1, 6] 1] = .ok c :=
    ⟨_, rfl⟩
  obtain ⟨hinfer, hcounted' | ⟨htranspose, -⟩⟩ := hok c hc
  · exact ⟨hp, hcounted, c, hc, hinfer, hcounted'⟩
  · cases htranspose

/-- Two tensors without entries have strides in range, and inference accepts their sum. But the
sizes of the sum cannot be counted: two of them are `2 ^ 33`. -/
theorem overruns_sum :
    (∀ t ∈ [Tensor.splat .f32 [8589934592, 1, 0] 1, .splat .f32 [1, 8589934592, 0] 1],
      t.Counted ∧ IsStrided t.sizes) ∧
    standard.infer (.primitive .add)
      [⟨.f32, .ofSizes [8589934592, 1, 0]⟩, ⟨.f32, .ofSizes [1, 8589934592, 0]⟩] =
        .ok [⟨.f32, .ofSizes [8589934592, 8589934592, 0]⟩] ∧
    Primitive.add.fold [.splat .f32 [8589934592, 1, 0] 1, .splat .f32 [1, 8589934592, 0] 1] =
      .error .overflow := by
  refine ⟨?_, by rfl, Primitive.fold_eq_overflow_iff.mpr (by decide)⟩
  simp only [List.forall_mem_cons, List.not_mem_nil, false_implies, implies_true, and_true]
  exact ⟨⟨Tensor.counted_iff.mpr (by decide), by decide⟩,
    Tensor.counted_iff.mpr (by decide), by decide⟩

end TensorGraph
