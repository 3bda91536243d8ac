import TensorGraph.Proofs.Meaning.Attention
import TensorGraph.Proofs.Attention.Collapse
import TensorGraph.Proofs.Rewrite.Cycles

/-! # Detours

The test for convexity is exact: it fails for a path that leaves the island and comes back, however
it is ranked, and for nothing else. Where it holds, no plan for the island is refused for a cycle.
-/

namespace TensorGraph.Attention.Island

variable {g : Graph} {r : Ranking} {i : Island} {b : Boundary} {p : Plan Body}

theorem swap_replacement (e : i.replacement g b = .ok p) : ∃ n, Swap b n p := by
  obtain ⟨-, n, -, hstaged, -, hinputs, hreplacements⟩ := replacement_eq_ok e
  exact ⟨n, hstaged, hinputs, hreplacements⟩

theorem Convex.commit_ne_cycleIntroduced (h : i.Convex g) (hg : g.Linked)
    (hb : i.boundary g = .ok b) (e : i.replacement g b = .ok p) (v : Value) (y : NodeId) :
    g.commit p ≠ .error (.cycleIntroduced v y) := by
  intro hcommit
  obtain ⟨-, hcycle⟩ := Plan.check_eq_cycleIntroduced_iff.mp (Arena.commit_eq_error_iff.mp hcommit)
  obtain ⟨s, hs, u, hu, hd, -⟩ := Plan.exists_of_checkCycles_eq_error hcycle
  obtain ⟨n, hswap⟩ := swap_replacement e
  exact hswap.not_mem_dependencies hg h hb hs hu hd

/-- An island is found convex exactly if no path takes a detour around it, and then no plan for it
is refused for a cycle. -/
theorem isConvex_iff_not_detour (hg : g.WellFormed) (hr : Ranking.compute g = .ok r)
    (hne : i.nodes ≠ []) (hlive : ∀ x ∈ i.nodes, g.contains x = true) :
    (i.isConvex g r = true ↔ ¬ i.Detour g) ∧
      (i.isConvex g r = true → ∀ b p, i.boundary g = .ok b → i.replacement g b = .ok p →
        ∀ v y, g.commit p ≠ .error (.cycleIntroduced v y)) := by
  have hranks : r.Ranks g := by
    obtain ⟨s, hs, hranks, -⟩ := Ranking.compute_eq_ok hg
    rwa [Except.ok.inj (hr.symm.trans hs)]
  have hconvex := convex_of_isConvex hg.linked hranks (i := i)
  constructor
  · rw [← convex_iff_not_detour]
    exact ⟨hconvex, isConvex_of_convex hg.linked hranks hne hlive⟩
  · intro h b p hb e
    exact (hconvex h).commit_ne_cycleIntroduced hg.linked hb e

/-- A sum that is read by another one directly and by way of a third. -/
def bypassed : Graph where
  slots := #[
    ⟨0, 0, some ⟨Primitive.parameter ⟨.f32, .ofSizes [2]⟩, [],
      [⟨⟨.f32, .ofSizes [2]⟩, [⟨⟨1, 0⟩, 0⟩, ⟨⟨1, 0⟩, 1⟩]⟩], "", .empty⟩⟩,
    ⟨0, 0, some ⟨Primitive.add, [⟨⟨0, 0⟩, 0⟩, ⟨⟨0, 0⟩, 0⟩],
      [⟨⟨.f32, .ofSizes [2]⟩, [⟨⟨2, 0⟩, 0⟩, ⟨⟨2, 0⟩, 1⟩, ⟨⟨3, 0⟩, 0⟩]⟩], "", .empty⟩⟩,
    ⟨0, 0, some ⟨Primitive.add, [⟨⟨1, 0⟩, 0⟩, ⟨⟨1, 0⟩, 0⟩],
      [⟨⟨.f32, .ofSizes [2]⟩, [⟨⟨3, 0⟩, 1⟩]⟩], "", .empty⟩⟩,
    ⟨0, 0, some ⟨Primitive.add, [⟨⟨1, 0⟩, 0⟩, ⟨⟨2, 0⟩, 0⟩],
      [⟨⟨.f32, .ofSizes [2]⟩, [⟨⟨4, 0⟩, 0⟩]⟩], "", .empty⟩⟩,
    ⟨0, 0, some ⟨Primitive.result, [⟨⟨3, 0⟩, 0⟩], [], "", .empty⟩⟩]
  free := []
  parameters := [⟨0, 0⟩]
  results := [⟨4, 0⟩]
  live := 5
  version := 0
  table := .standard

def bypassedRanking : Ranking := ⟨[⟨0, 0⟩, ⟨1, 0⟩, ⟨2, 0⟩, ⟨3, 0⟩, ⟨4, 0⟩], 0⟩

def direct : Island := ⟨.plain, ⟨3, 0⟩, [⟨1, 0⟩, ⟨3, 0⟩], []⟩

def full : Island := ⟨.plain, ⟨3, 0⟩, [⟨1, 0⟩, ⟨2, 0⟩, ⟨3, 0⟩], []⟩

/-- The path through the third sum is a detour unless that sum moves, too. -/
theorem detour_bypassed : direct.Detour bypassed ∧ ¬ full.Detour bypassed ∧
    ∃ b p, full.boundary bypassed = .ok b ∧ full.replacement bypassed b = .ok p ∧
      ∀ v y, bypassed.commit p ≠ .error (.cycleIntroduced v y) := by
  have hg : bypassed.WellFormed := Arena.wellFormed_of_validate (by cbv) (by decide) (by decide)
    (by decide) (fun _ h => absurd h List.not_mem_nil) (by cbv)
  have hr : Ranking.compute bypassed = .ok bypassedRanking := by cbv
  have hdirect := isConvex_iff_not_detour (i := direct) hg hr (by decide) (by decide)
  have hfull := isConvex_iff_not_detour (i := full) hg hr (by decide) (by decide)
  have hblamed : direct.isConvex bypassed bypassedRanking = false := by cbv
  have hfound : full.isConvex bypassed bypassedRanking = true := by cbv
  have hb : full.boundary bypassed = .ok ⟨[⟨⟨0, 0⟩, 0⟩], [⟨⟨3, 0⟩, 0⟩]⟩ := by cbv
  obtain ⟨p, hp⟩ : ∃ p, full.replacement bypassed ⟨[⟨⟨0, 0⟩, 0⟩], [⟨⟨3, 0⟩, 0⟩]⟩ = .ok p := by
    have hsome : (full.replacement bypassed
        ⟨[⟨⟨0, 0⟩, 0⟩], [⟨⟨3, 0⟩, 0⟩]⟩).toOption.isSome = true := by cbv
    cases h : full.replacement bypassed ⟨[⟨⟨0, 0⟩, 0⟩], [⟨⟨3, 0⟩, 0⟩]⟩ with
    | ok p => exact ⟨p, rfl⟩
    | error e => simp [h, Except.toOption] at hsome
  refine ⟨not_not.mp (mt hdirect.1.mpr ?_), hfull.1.mp hfound, _, p, hb, hp,
    hfull.2 hfound _ p hb hp⟩
  simp [hblamed]

end TensorGraph.Attention.Island
