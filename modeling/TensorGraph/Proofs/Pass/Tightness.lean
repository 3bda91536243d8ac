import TensorGraph.Proofs.Pass.FixedPoint

/-! # No dead node is left

Commits, unpinning and whole runs of passes leave a tight graph tight. Releases start from a few
nodes and go on to what those read. The order in which they start does not matter, as long as
all that may have died is among them.
-/

namespace TensorGraph

open Arena PatternPass

variable {g h : Graph} {ids seeds unpins : List NodeId} {p : Plan Body}

/-- Releasing all that is dead, in whatever order, leaves nothing dead. -/
theorem Arena.DeadWithin.tight_releaseAll {β : Type} {a : Arena β} (h : a.DeadWithin ids)
    (ha : a.WellFormed) : (a.releaseAll ids).1.Tight := by
  rw [tight_iff_deadWithin]
  apply DeadWithin.releaseAll _ ha
  rwa [List.append_nil]

theorem Arena.Tight.pinned_apply_unpinned (ht : g.Tight) (hg : g.WellFormed)
    (hpin : pinAll g ids = .ok h) (hp : p.Accepted h)
    (hseeds : seeds.Perm (p.replacements.map (·.1.node) ++ (h.rewire p).2)) :
    (unpinAll ((h.rewire p).1.releaseAll seeds).1 unpins).1.Tight := by
  obtain ⟨hwf, ht⟩ := pinAll_induction stable_tight.pin ⟨hg, ht⟩ hpin
  have hrewired := rewired_rewire hwf hp
  have hdead : (h.rewire p).1.DeadWithin seeds := by
    intro x hx
    have hmem := hrewired.deadWithin hwf (tight_iff_deadWithin.mp ht) x hx
    rw [List.append_nil] at hmem
    exact hseeds.mem_iff.mpr hmem
  have hreleased := (releases_releaseAll _ seeds).wellFormed hrewired.wellFormed
  have htight := hdead.tight_releaseAll hrewired.wellFormed
  exact (unpinAll_induction stable_tight.unpin ⟨hreleased, htight⟩ unpins).2

/-- From a tight graph, a commit, an unpinning, a pattern pass with any rewrite and the attention
pass all lead to a tight graph, whether or not a pass succeeds. In whatever order a commit
releases what it replaced and what it inserted, and in whatever order nodes are unpinned after
that, no dead node is left. -/
theorem tight_of_tight (hg : g.WellFormed) (ht : g.Tight) :
    (∀ p done, g.commit p = .ok done → done.1.Tight) ∧
    (∀ id, g.contains id = true → ∃ done, g.unpin id = .ok done ∧ done.1.Tight) ∧
    (∀ p : PatternPass, (p.run g).1.Tight) ∧
    (∀ c, (Attention.run c g).1.Tight) ∧
    ∀ ids h p seeds unpins, pinAll g ids = .ok h → p.Accepted h →
      seeds.Perm (p.replacements.map (·.1.node) ++ (h.rewire p).2) →
      (unpinAll ((h.rewire p).1.releaseAll seeds).1 unpins).1.Tight := by
  refine ⟨fun p done e => ?_, fun id hid => ?_, fun p => ?_, fun c => ?_, ?_⟩
  · obtain ⟨hp, rfl⟩ := commit_eq_ok_iff.mp e
    exact ht.apply hg hp
  · have e := unpin_eq_ok_iff.mpr ⟨hid, rfl⟩
    exact ⟨_, e, ht.unpin hg e⟩
  · exact (Pass.sound_toPass p).tight g hg ht
  · exact (Attention.sound_pass c).tight g hg ht
  · intro ids h p seeds unpins hpin hp hseeds
    exact ht.pinned_apply_unpinned hg hpin hp hseeds

/-- The result reads the parameter in the place of the reshape, and the reshape is released. -/
theorem tight_echo_commit : Pipeline.echo.WellFormed ∧ Pipeline.echo.Tight ∧
    ∃ done, Pipeline.echo.commit (Plan.empty.replace (Pipeline.first 1)
        (.graph (Pipeline.first 0))) = .ok done ∧
      done.2.released = 1 ∧ done.1.Tight := by
  refine ⟨Pipeline.wellFormed_echo, Pipeline.tight_echo, ?_⟩
  have hreleased : (Pipeline.echo.commit (Plan.empty.replace (Pipeline.first 1)
      (.graph (Pipeline.first 0)))).toOption.map (fun done => done.2.released) = some 1 := by cbv
  obtain ⟨done, e, hcount⟩ := map_toOption_eq_some_iff.mp hreleased
  exact ⟨done, e, hcount, (tight_of_tight Pipeline.wellFormed_echo Pipeline.tight_echo).1 _ _ e⟩

end TensorGraph
