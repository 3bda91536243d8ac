import TensorGraph.Pass.Pipeline
import TensorGraph.Proofs.Pass.Builtin
import TensorGraph.Proofs.Rewrite.History

/-! # Runs as histories

A run of a pass does nothing that a client could not do. Whether or not it succeeds, it goes from
a graph that a history leads to, to one that a longer history leads to.
-/

namespace TensorGraph

open Arena

variable {P : Graph → Prop} {g : Graph}

/-! ### What runs of pipelines keep -/

def Pass.Preserves (p : Pass) (P : Graph → Prop) : Prop := ∀ g, P g → P (p.run g).1

theorem Pass.runChecked_fst (p : Pass) (g : Graph) : (p.runChecked g).1 = (p.run g).1 := by
  unfold runChecked
  split
  · rename_i e
    rw [e]
  · rename_i e
    rw [e]
    split
    · split <;> rfl
    · rfl

namespace Pipeline

variable {passes : List Pass} (hP : ∀ p ∈ passes, p.Preserves P)
include hP

theorem sweep_preserves (hg : P g) : P (sweep passes g).1 := by
  induction passes generalizing g with
  | nil => exact hg
  | cons p passes ih =>
    obtain ⟨hp, hP⟩ := List.forall_mem_cons.mp hP
    have hrun := hp g hg
    rw [← p.runChecked_fst] at hrun
    unfold sweep
    split <;> rename_i i _ e <;> rw [e] at hrun
    · exact hrun
    · have hrest := ih hP hrun
      split <;> rename_i e' <;> rwa [e'] at hrest

theorem iterate_preserves (hg : P g) (more : Nat) (stats : Stats) :
    P (iterate passes more stats g).1 := by
  induction more generalizing g stats with
  | zero =>
    have hsweep := sweep_preserves hP hg
    unfold iterate
    split <;> rename_i e <;> rw [e] at hsweep
    · exact hsweep
    · dsimp only
      split
      · exact hsweep
      · exact hsweep
      · rename_i hmore _
        cases hmore
  | succ more ih =>
    have hsweep := sweep_preserves hP hg
    unfold iterate
    split <;> rename_i e <;> rw [e] at hsweep
    · exact hsweep
    · dsimp only
      split
      · exact hsweep
      · exact hsweep
      · rename_i hmore _
        obtain rfl := Nat.succ.inj hmore
        exact ih hsweep _

theorem run_preserves (hg : P g) (maxSweeps : Nat) :
    P ((Pipeline.mk passes maxSweeps).run g).1 :=
  iterate_preserves hP hg _ _

end Pipeline

theorem Pass.preserves_both {p q : Pass} (hp : p.Preserves P) (hq : q.Preserves P)
    (name : String) : (both name p q).Preserves P := by
  intro g hg
  rcases both_fst (p := p) (q := q) (g := g) name with e | e
  · exact e ▸ hp g hg
  · exact e ▸ hq _ (hp g hg)

theorem Builtin.preserves (hpattern : ∀ p : PatternPass, p.toPass.Preserves P)
    (hattention : ∀ c, (Attention.pass c).Preserves P) (b : Builtin) : b.pass.Preserves P := by
  cases b with
  | attention c => exact hattention c
  | rewriting r =>
    cases r with
    | transpose => exact Pass.preserves_both (hpattern _) (hpattern _) _
    | reshape => exact Pass.preserves_both (hpattern _) (hpattern _) _
    | folding => exact hpattern _
    | biasFusion => exact hpattern _
    | quantizedBiasFusion => exact hpattern _
    | uniqueLowering => exact hpattern _

/-! ### Histories -/

def ReachedAfter (table : CapabilityTable) (history : List (Command Body)) (g : Graph) : Prop :=
  ∃ more, g = reached table (history ++ more)

variable {table : CapabilityTable} {history : List (Command Body)}

theorem ReachedAfter.perform (h : ReachedAfter table history g) (c : Command Body) :
    ReachedAfter table history (c.perform g).1 := by
  obtain ⟨more, rfl⟩ := h
  refine ⟨more ++ [c], ?_⟩
  rw [← List.append_assoc, reached_concat]

theorem stable_reachedAfter (table : CapabilityTable) (history : List (Command Body)) :
    PatternPass.Stable (ReachedAfter table history) where
  wellFormed g hg := by
    obtain ⟨more, rfl⟩ := hg
    exact wellFormed_reached table _
  pin g id b hg e := by
    have h := hg.perform (.pin id)
    rwa [Command.perform, e] at h
  unpin g id b k hg e := by
    have h := hg.perform (.unpin id)
    rwa [Command.perform, e] at h
  commit g p hg hp := by
    have h := hg.perform (.commit p)
    rwa [Command.perform, commit_eq_ok_iff.mpr ⟨hp, rfl⟩] at h

theorem PatternPass.preserves_reachedAfter (p : PatternPass) :
    p.toPass.Preserves (ReachedAfter table history) := fun _ hg =>
  ((stable_reachedAfter table history).keeps p).run hg

theorem Attention.preserves_reachedAfter (c : Attention.Config) :
    (Attention.pass c).Preserves (ReachedAfter table history) := fun _ hg =>
  Attention.run_stable (stable_reachedAfter table history).commit hg

theorem Builtin.preserves_reachedAfter (b : Builtin) :
    b.pass.Preserves (ReachedAfter table history) :=
  b.preserves PatternPass.preserves_reachedAfter Attention.preserves_reachedAfter

end TensorGraph
