import TensorGraph.Proofs.Inference.Overflow
import TensorGraph.Proofs.Pass.Canonicalization

/-! # Rewrites out of range

A step of a rewrite overflows if inference does on what is staged, or if folding does. For
transposes and reshapes neither happens: what a chain is joined to takes no product that has not
been taken before.
-/

namespace TensorGraph

open Arena

variable {g : Graph}

/-! ### Steps in range -/

namespace Staging

variable {α γ : Type} {s : Staging α} {f : α → Staging γ}

def Fits (s : Staging α) : Prop := ∀ p, s p ≠ .error .overflow

theorem Fits.bind (hs : s.Fits) (hf : ∀ a p q, s p = .ok (a, q) → (f a).Fits) : (s >>= f).Fits :=
  fun p => bind_ne_error (hs p) fun (a, q) h => hf a p q h q

theorem Fits.toPlan {s : Staging Unit} (hs : s.Fits) : s.toPlan ≠ .error .overflow :=
  fun e => hs _ (map_eq_error_iff.mp e)

theorem fits_ofOption {o : Option α} : (ofOption o).Fits := by
  cases o <;> exact fun _ => nofun

theorem fits_check {condition : Bool} : (check condition).Fits := by
  cases condition <;> exact fun _ => nofun

theorem fits_spec {x : Operand} : (spec g x).Fits := fun _ => fits_ofOption _

theorem fits_inherit {sources : List NodeId} : (inherit sources).Fits := fun _ => nofun

theorem fits_replace {v : Value} {x : Operand} : (replace v x).Fits := fun _ => nofun

theorem fits_make {op : Operation Body} {inputs : List Operand}
    (h : ∀ specs, g.infer op specs ≠ .error .overflow) : (make g op inputs).Fits := by
  refine fun p e => absurd (Attempt.ofEdit_eq_overflow_iff.mp (map_eq_error_iff.mp e)) ?_
  refine bind_ne_error (mapM_ne_error fun x _ => ?_) fun specs _ =>
    bind_ne_error (h specs) fun _ _ => nofun
  unfold Plan.operandSpec
  split
  · exact nofun
  · cases x <;> exact nofun

theorem fits_makeValue {op : Operation Body} {inputs : List Operand}
    (h : ∀ specs, g.infer op specs ≠ .error .overflow) : (makeValue g op inputs).Fits :=
  (fits_make h).bind fun _ _ _ _ _ => nofun

end Staging

/-! ### Transposes -/

namespace Transpose

theorem not_overflows_eliminateIdentity : ¬ eliminateIdentity.Overflows g := by
  rintro ⟨root, m, hm, e⟩
  obtain ⟨n, v, -, -, -, -, rfl⟩ := Pattern.matchNode_unary (PatternPass.matchNode_of_matchAt? hm)
  exact Staging.fits_replace.toPlan (rewrite_change.symm.trans e)

theorem not_overflows_collapseChain (htable : g.table = .standard) :
    ¬ collapseChain.Overflows g := by
  rintro ⟨root, m, hm, e⟩
  obtain ⟨n, w, n', v, -, -, -, -, -, -, -, rfl⟩ :=
    Pattern.matchNode_chain (PatternPass.matchNode_of_matchAt? hm)
  refine Staging.Fits.toPlan ?_ (rewrite_chain.symm.trans e)
  refine .bind Staging.fits_ofOption fun first _ _ _ => ?_
  refine .bind Staging.fits_ofOption fun second _ _ _ => ?_
  refine .bind Staging.fits_ofOption fun composed _ _ _ => ?_
  split
  · exact Staging.fits_replace
  · refine .bind (Staging.fits_makeValue fun specs => ?_) fun folded _ _ _ =>
      .bind Staging.fits_inherit fun _ _ _ _ => Staging.fits_replace
    rw [infer, PatternPass.table_pinned, htable]
    exact Primitive.infer_first_ne_overflow rfl rfl fun _ => Inferred.transpose_ne_overflow

end Transpose

/-! ### Reshapes -/

namespace Reshape

theorem not_overflows_eliminateIdentity : ¬ eliminateIdentity.Overflows g := by
  rintro ⟨root, m, hm, e⟩
  obtain ⟨n, v, -, -, -, -, rfl⟩ := Pattern.matchNode_unary (PatternPass.matchNode_of_matchAt? hm)
  refine Staging.Fits.toPlan ?_ (rewrite_change.symm.trans e)
  exact .bind Staging.fits_spec fun _ _ _ _ => .bind Staging.fits_spec fun _ _ _ _ =>
    .bind Staging.fits_check fun _ _ _ _ => Staging.fits_replace

/-- The target of the outer reshape has been accepted for another input. -/
theorem not_overflows_collapseChain (hg : g.Regular) : ¬ collapseChain.Overflows g := by
  rintro ⟨root, m, hm, e⟩
  obtain ⟨n, w, n', v, hn, hkind, -, -, -, -, hguard, rfl⟩ :=
    Pattern.matchNode_chain (PatternPass.matchNode_of_matchAt? hm)
  have hself : isSelfContained n.op = true := Guard.test_onOperation hn hguard
  obtain ⟨target, specialZero, hop, htarget⟩ := target?_of_kind (List.mem_singleton.mp hkind)
  refine Staging.Fits.toPlan ?_ (rewrite_chain.symm.trans e)
  refine .bind Staging.fits_ofOption fun target' _ _ h => ?_
  rw [node?_pinned, hn, Option.bind_some] at h
  obtain rfl := Option.some.inj (htarget.symm.trans (Staging.ofOption_eq_ok_iff.mp h).1)
  refine .bind (Staging.fits_makeValue fun specs => ?_) fun _ _ _ _ =>
    .bind Staging.fits_spec fun _ _ _ _ => .bind Staging.fits_spec fun _ _ _ _ =>
    .bind Staging.fits_check fun _ _ _ _ => .bind Staging.fits_inherit fun _ _ _ _ =>
    Staging.fits_replace
  obtain ⟨given, outputs, -, hinfer, -⟩ := hg.typed.node hn
  rw [hop] at hinfer
  obtain ⟨s, out, -, hout, -⟩ := (CapabilityTable.infer_first_iff rfl rfl).mp hinfer
  rw [infer, PatternPass.table_pinned, hg.table]
  exact Primitive.infer_first_ne_overflow rfl rfl fun s' =>
    Inferred.reshape_ne_overflow (selfContained_of_isSelfContained (hop ▸ hself)) hout

end Reshape

end TensorGraph
