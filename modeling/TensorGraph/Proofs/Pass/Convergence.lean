import TensorGraph.Proofs.Pass.FixedPoint
import TensorGraph.Proofs.Pass.Lowering
import TensorGraph.Proofs.Pass.Overflow

/-! # Convergence

Every rewriting pass lowers the measure of a graph whenever it reports a change. The measure is
well founded, so a pipeline of such passes ends if it is given enough sweeps. It ends with an error
only if a product of sizes that a fold, a fusion or a lowering takes is out of range.
-/

namespace TensorGraph

namespace Rewriting

def parts : Rewriting → List PatternPass
  | transpose => [Transpose.eliminateIdentity, Transpose.collapseChain]
  | reshape => [Reshape.eliminateIdentity, Reshape.collapseChain]
  | folding => [ConstantFolding.pass]
  | biasFusion => [BiasFusion.plain]
  | quantizedBiasFusion => [BiasFusion.quantized]
  | uniqueLowering => [UniqueLowering.pass]

def Overflows (r : Rewriting) (g : Graph) : Prop := ∃ p ∈ r.parts, p.Overflows g

theorem descending (r : Rewriting) : r.pass.Descending r.Overflows := by
  have hsingle {p : PatternPass} (hp : p.Reducing) :
      p.toPass.Descending fun g => ∃ q ∈ [p], q.Overflows g :=
    hp.descending.mono fun _ h => ⟨p, List.mem_singleton_self p, h⟩
  have hboth {p q : PatternPass} (g : Graph) (h : p.Overflows g ∨ q.Overflows g) :
      ∃ x ∈ [p, q], x.Overflows g := by simpa using h
  cases r with
  | transpose => exact Transpose.descending_canonicalize.mono hboth
  | reshape => exact Reshape.descending_canonicalize.mono hboth
  | folding => exact hsingle ConstantFolding.reducing_pass
  | biasFusion => exact hsingle BiasFusion.reducing_plain
  | quantizedBiasFusion => exact hsingle BiasFusion.reducing_quantized
  | uniqueLowering => exact hsingle UniqueLowering.reducing_pass

theorem ne_layout_of_overflows {r : Rewriting} {g : Graph} (hg : g.Ready) (h : r.Overflows g) :
    r ≠ .transpose ∧ r ≠ .reshape := by
  obtain ⟨p, hp, h⟩ := h
  constructor
  · rintro rfl
    rcases List.mem_pair.mp hp with rfl | rfl
    · exact Transpose.not_overflows_eliminateIdentity h
    · exact Transpose.not_overflows_collapseChain hg.regular.table h
  · rintro rfl
    rcases List.mem_pair.mp hp with rfl | rfl
    · exact Reshape.not_overflows_eliminateIdentity h
    · exact Reshape.not_overflows_collapseChain hg.regular h

end Rewriting

namespace Pipeline

open Arena

variable {passes : List Pass} {overflows : Graph → Prop} {g h : Graph}

/-- A sweep over descending passes succeeds, and lowers the measure if a pass reports a change; or
it stops at an overflow. -/
theorem sweep_descends (hs : ∀ p ∈ passes, p.Sound ∧ p.Descending overflows) (hg : g.Ready) :
    (∃ h outcomes, sweep passes g = (h, .ok outcomes) ∧ h.Ready ∧ h.measure ≤ g.measure ∧
      ((∃ o ∈ outcomes, o.changed = true) → h.measure < g.measure)) ∨
    ∃ h, sweep passes g = (h, .error .overflow) ∧ h.Ready ∧ overflows h := by
  induction passes generalizing g with
  | nil =>
    refine .inl ⟨g, [], rfl, hg, le_rfl, ?_⟩
    rintro ⟨o, ho, -⟩
    exact absurd ho List.not_mem_nil
  | cons p passes ih =>
    obtain ⟨⟨hsound, hdescending⟩, hs⟩ := List.forall_mem_cons.mp hs
    unfold sweep
    rw [runChecked_eq hsound hg.regular.wellFormed]
    rcases hdescending g hg with ⟨h, o, e, hh, hle, hlt⟩ | ⟨h, e, hover⟩
    · rw [e]
      dsimp only
      rcases ih hs hh with ⟨i, outcomes, e', hi, hle', hlt'⟩ | ⟨i, e', hover⟩
      · rw [e']
        refine .inl ⟨i, o :: outcomes, rfl, hi, hle'.trans hle, ?_⟩
        rintro ⟨x, hx, ho⟩
        rcases List.mem_cons.mp hx with rfl | hx
        · exact hle'.trans_lt (hlt ho)
        · exact (hlt' ⟨x, hx, ho⟩).trans_le hle
      · rw [e']
        exact .inr ⟨i, rfl, hover⟩
    · rw [e]
      exact .inr ⟨h, rfl, hover⟩

/-- A sweep that changes something lowers the measure, so only finitely many do. -/
theorem iterate_converges (hs : ∀ p ∈ passes, p.Sound ∧ p.Descending overflows) (hg : g.Ready) :
    ∃ N, ∀ more, N ≤ more → ∀ stats,
      (∃ h s, iterate passes more stats g = (h, .ok s)) ∨
      ∃ h, iterate passes more stats g = (h, .error .overflow) ∧ h.Ready ∧ overflows h := by
  induction hm : g.measure using WellFoundedLT.induction generalizing g with
  | _ μ ih =>
    rcases sweep_descends hs hg with ⟨h, outcomes, e, hh, -, hlt⟩ | ⟨h, e, hover⟩
    · have hlen := length_outcomes (fun p hp => (hs p hp).1) hg.regular.wellFormed e
      by_cases ho : ∀ o ∈ outcomes, o.changed = false
      · refine ⟨0, fun more _ stats => .inl ⟨h, stats.addSweep outcomes, ?_⟩⟩
        unfold iterate
        rw [e]
        dsimp only
        rw [(changedNames_eq_nil_iff hlen).mpr ho]
      · push Not at ho
        obtain ⟨o, ho, hchanged⟩ := ho
        have hchanged : o.changed = true := by simpa using hchanged
        obtain ⟨N, hN⟩ := ih h.measure (hm ▸ hlt ⟨o, ho, hchanged⟩) hh rfl
        refine ⟨N + 1, fun more hmore stats => ?_⟩
        cases more with
        | zero => exact absurd hmore (Nat.not_succ_le_zero N)
        | succ more =>
          have hrest := hN more (Nat.le_of_succ_le_succ hmore) (stats.addSweep outcomes)
          unfold iterate
          rw [e]
          dsimp only
          split
          · rename_i hnil
            have hall := (changedNames_eq_nil_iff hlen).mp hnil o ho
            rw [hchanged] at hall
            cases hall
          · rename_i hzero _
            cases hzero
          · rename_i rest hmore _
            obtain rfl := Nat.succ.inj hmore
            exact hrest
    · refine ⟨0, fun more _ stats => .inr ⟨h, ?_, hover⟩⟩
      unfold iterate
      rw [e]

/-- With enough sweeps, a pipeline of rewriting passes in any order ends without an error, unless a
rewrite overflows that folds constants, fuses a bias or lowers Unique. -/
theorem run_converges (rs : List Rewriting) (hg : g.WellFormed) (htable : g.table = .standard)
    (hpins : g.Unpinned) (hspecs : g.Inferred) :
    ∃ N, ∀ maxSweeps, N ≤ maxSweeps →
      (∃ h s, run ⟨rs.map Rewriting.pass, maxSweeps⟩ g = (h, .ok s)) ∨
      ∃ h, run ⟨rs.map Rewriting.pass, maxSweeps⟩ g = (h, .error .overflow) ∧
        ∃ r ∈ rs, r.Overflows h ∧ r ≠ .transpose ∧ r ≠ .reshape := by
  have hready : g.Ready := ⟨⟨hg, typed_of_inferred htable hspecs, htable⟩, hpins⟩
  have hs : ∀ p ∈ rs.map Rewriting.pass,
      p.Sound ∧ p.Descending fun h => ∃ r ∈ rs, r.Overflows h :=
    List.forall_mem_map.mpr fun r hr =>
      ⟨r.sound_pass, r.descending.mono fun _ hover => ⟨r, hr, hover⟩⟩
  obtain ⟨N, hN⟩ := iterate_converges hs hready
  refine ⟨N + 1, fun maxSweeps hle => ?_⟩
  refine (hN (maxSweeps - 1) (by omega) (.start _)).imp_right ?_
  rintro ⟨h, e, hh, r, hr, hover⟩
  exact ⟨h, e, r, hr, hover, Rewriting.ne_layout_of_overflows hh hover⟩

theorem nodeIds_dangling : dangling.nodeIds =
    [⟨0, 0⟩, ⟨1, 0⟩, ⟨2, 0⟩, ⟨3, 0⟩, ⟨4, 0⟩, ⟨5, 0⟩, ⟨6, 0⟩] := by rfl

theorem unpinned_dangling : dangling.Unpinned :=
  unpinned_of_nodeIds (by rw [nodeIds_dangling]; decide)

theorem inferred_dangling : dangling.Inferred := by
  refine inferred_of_nodeIds ?_
  rw [nodeIds_dangling]
  simp only [List.forall_mem_cons, List.not_mem_nil, false_implies, implies_true, and_true]
  refine ⟨?_, ?_, ?_, ?_, ?_, ?_, ?_⟩ <;> rfl

/-- Changes of layout alone end on the graph in which a fusion follows a release. -/
theorem converges_dangling : ∃ N, ∀ maxSweeps, N ≤ maxSweeps → ∃ h s,
    run ⟨[Rewriting.reshape, .transpose].map Rewriting.pass, maxSweeps⟩ dangling = (h, .ok s) := by
  obtain ⟨N, hN⟩ := run_converges [.reshape, .transpose] wellFormed_dangling rfl unpinned_dangling
    inferred_dangling
  refine ⟨N, fun maxSweeps hle => (hN maxSweeps hle).resolve_right ?_⟩
  rintro ⟨h, -, r, hr, -, htranspose, hreshape⟩
  rcases List.mem_pair.mp hr with rfl | rfl
  · exact hreshape rfl
  · exact htranspose rfl

/-! ### Strides that are too large -/

/-- A constant without entries along long axes, added to itself. -/
def vast : Graph where
  slots := #[
    slotOf (Primitive.constant (.splat .f32 [0, 8589934592, 8589934592] 1)) []
      [⟨f32 [0, 8589934592, 8589934592], [reader 1 0, reader 1 1]⟩],
    slotOf Primitive.add [first 0, first 0]
      [⟨f32 [0, 8589934592, 8589934592], [reader 2 0]⟩],
    slotOf Primitive.result [first 1] []]
  free := []
  parameters := []
  results := [⟨2, 0⟩]
  live := 3
  version := 0
  table := .standard

theorem wellFormed_vast : vast.WellFormed :=
  wellFormed_of_validate (by cbv) (by decide) (by decide) (by decide)
    (fun _ h => absurd h List.not_mem_nil) (by cbv)

theorem nodeIds_vast : vast.nodeIds = [⟨0, 0⟩, ⟨1, 0⟩, ⟨2, 0⟩] := by rfl

theorem unpinned_vast : vast.Unpinned :=
  unpinned_of_nodeIds (by rw [nodeIds_vast]; decide)

theorem inferred_vast : vast.Inferred := by
  refine inferred_of_nodeIds ?_
  rw [nodeIds_vast]
  simp only [List.forall_mem_cons, List.not_mem_nil, false_implies, implies_true, and_true]
  refine ⟨?_, ?_, ?_⟩ <;> rfl

/-- Folding overflows on the sum, however many sweeps there may be: a stride of its operands is the
product of two sizes of `2 ^ 33`. -/
theorem overflows_vast : vast.WellFormed ∧ vast.table = .standard ∧ vast.Unpinned ∧
    vast.Inferred ∧ ∀ maxSweeps,
      run ⟨[Rewriting.folding].map Rewriting.pass, maxSweeps⟩ vast = (vast, .error .overflow) := by
  refine ⟨wellFormed_vast, rfl, unpinned_vast, inferred_vast, fun maxSweeps => ?_⟩
  have hsweep : sweep ([Rewriting.folding].map Rewriting.pass) vast =
      (vast, .error .overflow) := by cbv
  rw [run, iterate, hsweep]

end Pipeline

end TensorGraph
