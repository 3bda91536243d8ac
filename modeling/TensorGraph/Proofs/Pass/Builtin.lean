import TensorGraph.Pass.Standard
import TensorGraph.Proofs.Pass.Visit

/-! # Built-in passes

Every built-in pass keeps a graph well formed and tight. Without a change it does nothing but
release, and in a tight graph it does not even do that.
-/

namespace TensorGraph

open PatternPass (Quiet Stable stable_wellFormed stable_tight)

/-- The passes that rewrite what a pattern matches. -/
inductive Rewriting where
  | transpose
  | reshape
  | folding
  | biasFusion
  | quantizedBiasFusion
  | uniqueLowering
deriving DecidableEq

def Rewriting.pass : Rewriting → Pass
  | transpose => Transpose.canonicalize
  | reshape => Reshape.canonicalize
  | folding => ConstantFolding.pass.toPass
  | biasFusion => BiasFusion.plain.toPass
  | quantizedBiasFusion => BiasFusion.quantized.toPass
  | uniqueLowering => UniqueLowering.pass.toPass

inductive Builtin where
  | rewriting (r : Rewriting)
  | attention (c : Attention.Config)

def Builtin.pass : Builtin → Pass
  | rewriting r => r.pass
  | attention c => Attention.pass c

def Builtin.standard : List Builtin :=
  [.rewriting .transpose, .rewriting .reshape, .rewriting .folding,
    .rewriting .quantizedBiasFusion, .rewriting .biasFusion, .rewriting .uniqueLowering,
    .attention .standard]

theorem Builtin.map_pass_standard : Builtin.standard.map Builtin.pass = Pipeline.standard.passes :=
  rfl

namespace Pass

variable {p q : Pass} {g h : Graph} {o : Outcome}

/-- A pass keeps graphs well formed and tight, and without a change it only releases. -/
structure Sound (p : Pass) : Prop where
  wellFormed : ∀ g, g.WellFormed → (p.run g).1.WellFormed
  tight : ∀ g, g.WellFormed → g.Tight → (p.run g).1.Tight
  quiet : ∀ g h o, g.WellFormed → p.run g = (h, .ok o) → o.changed = false →
    Quiet g o.released h
  still : ∀ g h o, g.WellFormed → g.Tight → p.run g = (h, .ok o) → o.changed = false → h = g

theorem Sound.wellFormed_of (hp : p.Sound) (hg : g.WellFormed) {r : Except TransformError Outcome}
    (e : p.run g = (h, r)) : h.WellFormed := by
  have hwf := hp.wellFormed g hg
  rwa [e] at hwf

/-- The pass has nothing to change and nothing to release. -/
def Settled (p : Pass) (g : Graph) : Prop := ∃ o, p.run g = (g, .ok o) ∧ o.changed = false

theorem sound_toPass (p : PatternPass) : p.toPass.Sound where
  wellFormed _ hg := (stable_wellFormed.keeps p).run hg
  tight _ hg ht := ((stable_tight.keeps p).run ⟨hg, ht⟩).2
  quiet g h o hg e ho := by
    obtain ⟨order, horder, -⟩ := hg.topologicalOrder_eq
    simp only [PatternPass.toPass, PatternPass.run, horder] at e
    obtain ⟨-, k, hk, hq⟩ := PatternPass.visitAll_quiet e ho
    rw [hk, Outcome.none, Nat.zero_add]
    exact hq
  still g h o hg ht e ho := by
    obtain ⟨order, horder, -⟩ := hg.topologicalOrder_eq
    simp only [PatternPass.toPass, PatternPass.run, horder] at e
    exact (PatternPass.visitAll_still ht e ho).1

/-- Where a pattern pass is settled in a tight graph, it declines every match. -/
theorem Settled.declines {p : PatternPass} (hp : p.toPass.Settled g) (hg : g.WellFormed)
    (ht : g.Tight) {root : NodeId} (hroot : g.contains root = true) {m : Match}
    (hm : p.matchAt? g root = some m) : p.Declines (g.pinned m.nodes) m := by
  obtain ⟨o, e, ho⟩ := hp
  obtain ⟨order, horder, -, hperm⟩ := hg.topologicalOrder_eq
  simp only [PatternPass.toPass, PatternPass.run, horder] at e
  have hmem := hperm.mem_iff.mpr (Arena.mem_nodeIds_iff_contains.mpr hroot)
  exact (PatternPass.visitAll_still ht e ho).2 root hmem m hm

theorem both_eq_ok {name : String} (e : (both name p q).run g = (h, .ok o)) :
    ∃ i a b, p.run g = (i, .ok a) ∧ q.run i = (h, .ok b) ∧ o = a.merge b := by
  simp only [both] at e
  split at e
  · cases (Prod.mk.inj e).2
  rename_i i a hp
  split at e
  · cases (Prod.mk.inj e).2
  rename_i j b hq
  obtain ⟨rfl, he⟩ := Prod.mk.inj e
  exact ⟨i, a, b, hp, hq, (Except.ok.inj he).symm⟩

theorem both_fst (name : String) :
    ((both name p q).run g).1 = (p.run g).1 ∨
      ((both name p q).run g).1 = (q.run (p.run g).1).1 := by
  simp only [both]
  split
  · rename_i i e hp
    exact .inl (congrArg Prod.fst hp).symm
  · rename_i i a hp
    refine .inr ?_
    rw [hp]
    split <;> rename_i hq <;> exact (congrArg Prod.fst hq).symm

theorem Sound.both (hp : p.Sound) (hq : q.Sound) (name : String) : (both name p q).Sound where
  wellFormed g hg := by
    rcases both_fst (p := p) (q := q) (g := g) name with e | e <;> rw [e]
    · exact hp.wellFormed g hg
    · exact hq.wellFormed _ (hp.wellFormed g hg)
  tight g hg ht := by
    rcases both_fst (p := p) (q := q) (g := g) name with e | e <;> rw [e]
    · exact hp.tight g hg ht
    · exact hq.tight _ (hp.wellFormed g hg) (hp.tight g hg ht)
  quiet g h o hg e ho := by
    obtain ⟨i, a, b, ha, hb, rfl⟩ := both_eq_ok e
    obtain ⟨hoa, hob⟩ := Bool.or_eq_false_iff.mp ho
    exact (hp.quiet g i a hg ha hoa).trans (hq.quiet i h b (hp.wellFormed_of hg ha) hb hob)
  still g h o hg ht e ho := by
    obtain ⟨i, a, b, ha, hb, rfl⟩ := both_eq_ok e
    obtain ⟨hoa, hob⟩ := Bool.or_eq_false_iff.mp ho
    obtain rfl := hp.still g i a hg ht ha hoa
    exact hq.still i h b hg ht hb hob

end Pass

namespace Attention

variable {c : Config} {g h : Graph} {r : Ranking} {o o' : Outcome} {is : List Island}

theorem fusePermitted_eq_ok {i : Island} {done : Option (Graph × Commit)}
    (e : fusePermitted c g i = .ok done) : done = none ∨
      ∃ b p, i.boundary g = .ok b ∧ i.replacement g b = .ok p ∧ p.Accepted g ∧
        done = some (g.apply p) := by
  obtain ⟨b, hb, e⟩ := bind_eq_ok_iff.mp e
  split at e
  · cases hf : i.fuse g b with
    | error f =>
      rw [hf] at e
      cases e
    | ok result =>
      rw [hf] at e
      obtain ⟨p, hp, hcommit⟩ := bind_eq_ok_iff.mp hf
      obtain ⟨hacc, rfl⟩ := Arena.commit_eq_ok_iff.mp hcommit
      exact .inr ⟨b, p, hb, hp, hacc, (Except.ok.inj e).symm⟩
  · exact .inl (Except.ok.inj e).symm

theorem fuseAll_stable {P : Graph → Prop}
    (hP : ∀ g (p : Plan Body), P g → p.Accepted g → P (g.apply p).1) (hg : P g) :
    P (fuseAll c is r g o).1 := by
  induction is generalizing r g o with
  | nil => exact hg
  | cons i is ih =>
    unfold fuseAll
    split
    · exact hg
    · split
      · split
        · exact hg
        · exact ih hg
        · rename_i h done e
          rcases fusePermitted_eq_ok e with he | ⟨b, p, -, -, hp, he⟩
          · cases he
          · obtain rfl : h = _ := congrArg Prod.fst (Option.some.inj he)
            exact ih (hP g p hg hp)
      · exact ih hg

theorem run_stable {P : Graph → Prop}
    (hP : ∀ g (p : Plan Body), P g → p.Accepted g → P (g.apply p).1) (hg : P g) :
    P (run c g).1 := by
  unfold run
  split
  · exact hg
  · exact fuseAll_stable hP hg

theorem changed_of_fuseAll (e : fuseAll c is r g o = (h, .ok o')) (ho : o.changed = true) :
    o'.changed = true := by
  induction is generalizing r g o with
  | nil =>
    obtain rfl := Except.ok.inj (Prod.mk.inj e).2
    exact ho
  | cons i is ih =>
    unfold fuseAll at e
    split at e
    · cases (Prod.mk.inj e).2
    · split at e
      · split at e
        · cases (Prod.mk.inj e).2
        · exact ih e ho
        · exact ih e rfl
      · exact ih e ho

theorem fuseAll_still (e : fuseAll c is r g o = (h, .ok o')) (ho : o'.changed = false) :
    h = g ∧ o' = o := by
  induction is generalizing r g o with
  | nil =>
    obtain ⟨rfl, he⟩ := Prod.mk.inj e
    exact ⟨rfl, (Except.ok.inj he).symm⟩
  | cons i is ih =>
    unfold fuseAll at e
    split at e
    · cases (Prod.mk.inj e).2
    · split at e
      · split at e
        · cases (Prod.mk.inj e).2
        · exact ih e
        · rw [changed_of_fuseAll e rfl] at ho
          cases ho
      · exact ih e

theorem run_still (e : run c g = (h, .ok o)) (ho : o.changed = false) :
    h = g ∧ o.released = 0 := by
  unfold run at e
  split at e
  · cases (Prod.mk.inj e).2
  · obtain ⟨rfl, rfl⟩ := fuseAll_still e ho
    exact ⟨rfl, rfl⟩

theorem sound_pass (c : Config) : (pass c).Sound where
  wellFormed _ hg := run_stable (fun _ _ hg hp => hg.apply hp) hg
  tight _ hg ht := (run_stable (P := fun g => g.WellFormed ∧ g.Tight)
    (fun _ _ hg hp => ⟨hg.1.apply hp, hg.2.apply hg.1 hp⟩) ⟨hg, ht⟩).2
  quiet g h o _ e ho := by
    obtain ⟨rfl, hz⟩ := run_still e ho
    rw [hz]
    exact .refl h
  still _ _ _ _ _ e ho := (run_still e ho).1

end Attention

theorem Rewriting.sound_pass (r : Rewriting) : r.pass.Sound := by
  cases r with
  | transpose => exact (Pass.sound_toPass _).both (Pass.sound_toPass _) _
  | reshape => exact (Pass.sound_toPass _).both (Pass.sound_toPass _) _
  | folding => exact Pass.sound_toPass _
  | biasFusion => exact Pass.sound_toPass _
  | quantizedBiasFusion => exact Pass.sound_toPass _
  | uniqueLowering => exact Pass.sound_toPass _

theorem Builtin.sound_pass (b : Builtin) : b.pass.Sound := by
  cases b with
  | rewriting r => exact r.sound_pass
  | attention c => exact Attention.sound_pass c

theorem Builtin.sound_map (bs : List Builtin) : ∀ p ∈ bs.map Builtin.pass, p.Sound :=
  List.forall_mem_map.mpr fun b _ => b.sound_pass

end TensorGraph
