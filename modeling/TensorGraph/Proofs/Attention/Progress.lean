import TensorGraph.Proofs.Attention.Removal

/-! # Progress of the attention pass

In a graph without pins a fusion removes the whole island if and only if none of its nodes is dead,
and with the island two products. As long as no dead node is of a kind that islands take, runs in
a row therefore come to one that changes nothing. An island that nothing reads is fused for the
report of the run, but no value of it is replaced, and it stays as it is.
-/

namespace TensorGraph

theorem Arena.pins_eq_zero {β : Type} {a : Arena β} (h : ∀ s ∈ a.slots, s.pins = 0)
    (x : NodeId) : a.pins x = 0 := by
  unfold pins
  cases hs : a.slot? x with
  | none => rfl
  | some s =>
    have hzero := h s (Array.mem_of_getElem? (Option.filter_eq_some_iff.mp hs).1)
    exact congrArg UInt32.toNat hzero

namespace Attention

variable {g h : Graph} {fused : List Island} {i : Island} {c : Config}

/-! ### Products of an island -/

theorem hasProducts_of_mem_discover {r : Ranking} (ha : g.Acyclic) (hi : i ∈ (discover c r g).1) :
    i.HasProducts g := by
  obtain ⟨variant, root, m, -, hmatch, hcollect⟩ := exists_match_of_mem_discover hi
  obtain ⟨hbuilt, -, hstacks⟩ := variant.ensures_motif
  obtain ⟨hroot, hkind, x, hx, hkind', hreads⟩ :=
    Pattern.exists_operations hbuilt hstacks (Pattern.matchOutput_of_matchNode hmatch)
  refine ⟨root, Island.mem_nodes_of_collect hcollect hroot, x,
    Island.mem_nodes_of_collect hcollect hx, ?_, hkind, hkind'⟩
  rintro rfl
  exact ha _ hreads

theorem hasProducts_of_mem_fusedBy (ha : g.Acyclic) (hi : i ∈ fusedBy c g) :
    i.HasProducts g := by
  unfold fusedBy at hi
  split at hi
  · exact absurd hi List.not_mem_nil
  · exact hasProducts_of_mem_discover ha (mem_of_mem_select (fusedAmong_sublist.subset hi))

/-! ### Islands of a run -/

/-- No dead node is of a kind that islands take. -/
def Spared (g : Graph) : Prop := ∀ x k, g.Dead x → g.kind? x = some k → ¬ Member k

/-- A consistent graph without pins, of which no dead node gets into an island. -/
structure Tidy (g : Graph) : Prop where
  wellFormed : g.WellFormed
  standard : g.table = .standard
  inferred : g.Inferred
  unpinned : ∀ x, g.pins x = 0
  spared : Spared g

namespace Fuses

theorem fits (hfuses : Fuses g fused h) (hi : i ∈ fused) : i.Fits g := by
  cases hfuses with
  | done => exact absurd hi List.not_mem_nil
  | fuse first later rest =>
    rcases List.mem_cons.mp hi with rfl | hi
    · exact first.fits
    · exact (later i hi).1

theorem tidy (hfuses : Fuses g fused h) (hg : Tidy g) : Tidy h := by
  obtain ⟨hwf, hstandard, hinferred, -⟩ :=
    hfuses.consistent hg.wellFormed hg.standard hg.inferred
  refine ⟨hwf, hstandard, hinferred, ?_, ?_⟩
  · rw [hfuses.pins_eq]
    exact hg.unpinned
  · intro x k hx hk hmember
    have hne : k ≠ .subgraph := by
      rintro rfl
      exact absurd hmember (by decide)
    exact hg.spared x k (hfuses.dead_iff.mp hx) (hfuses.kind?_eq hk hne) hmember

theorem living_of_spared (hfuses : Fuses g fused h) (hspared : Spared g) (hi : i ∈ fused) :
    ∀ x ∈ i.nodes, ¬ g.Dead x := by
  intro x hx hdead
  obtain ⟨k, hk, hmember⟩ := (hfuses.fits hi).members x hx
  exact hspared x k hdead hk hmember

/-- The fused islands go if and only if no node of them is dead. -/
theorem gone_iff (hfuses : Fuses g fused h) (hpins : ∀ x, g.pins x = 0) :
    (∀ i ∈ fused, ∀ x ∈ i.nodes, h.contains x = false) ↔
      ∀ i ∈ fused, ∀ x ∈ i.nodes, ¬ g.Dead x := by
  constructor
  · intro hgone i hi x hx hdead
    obtain ⟨k, hk, -⟩ := (hfuses.dead_iff.mpr hdead).kind
    exact Bool.eq_false_iff.mp (hgone i hi x hx) (Arena.contains_of_kind? hk)
  · intro hliving i hi x hx
    exact Bool.eq_false_iff.mpr
      (hfuses.not_contains (fun j hj => ⟨fun y _ => hpins y, hliving j hj⟩) hi hx)

end Fuses

theorem card_matMul_le_of_living (hg : g.WellFormed)
    (hpins : ∀ x, g.pins x = 0) (hfuses : Fuses g (fusedBy c g) h)
    (hliving : ∀ i ∈ fusedBy c g, ∀ x ∈ i.nodes, ¬ g.Dead x) :
    (h.ofKind .matMul).card + 2 * (fusedBy c g).length ≤ (g.ofKind .matMul).card :=
  hfuses.card_matMul_le (fun i hi => ⟨fun x _ => hpins x, hliving i hi⟩) fun _ hi =>
    hasProducts_of_mem_fusedBy hg.acyclic hi

def runs (c : Config) (n : Nat) (g : Graph) : Graph := (fun g => (run c g).1)^[n] g

theorem exists_unchanged_run (c : Config) (hg : Tidy g) :
    ∃ n h o, 2 * n ≤ (g.ofKind .matMul).card ∧ run c (runs c n g) = (h, .ok o) ∧
      o.changed = false := by
  induction hk : (g.ofKind .matMul).card using Nat.strong_induction_on generalizing g with
  | _ k ih =>
    obtain ⟨h, o, e, hfuses, -, hchanged⟩ := run_eq_ok c hg.wellFormed hg.standard hg.inferred
    have hcard := card_matMul_le_of_living hg.wellFormed hg.unpinned hfuses fun _ hi =>
      hfuses.living_of_spared hg.spared hi
    by_cases hc : o.changed = true
    · have hpos := List.length_pos_iff.mpr (hchanged.mp hc)
      obtain ⟨n, h', o', hle, e', hc'⟩ := ih _ (by omega) (hfuses.tidy hg) rfl
      have hnext : runs c (n + 1) g = runs c n h := by
        rw [runs, Function.iterate_succ_apply, e]
        rfl
      exact ⟨n + 1, h', o', by omega, hnext ▸ e', hc'⟩
    · exact ⟨0, h, o, by omega, e, Bool.eq_false_iff.mpr hc⟩

/-- What the fusions of a run achieve on a consistent graph without pins. A run reports a change
exactly if it fuses an island. The nodes of the fused islands are gone if and only if none of them
was dead, and then there are two products less for every fusion. If no dead node is of a kind that
islands take, runs in a row come to one that reports no change. -/
theorem run_progress (c : Config) (hg : g.WellFormed) (ht : g.table = .standard)
    (hi : g.Inferred) (hpins : ∀ x, g.pins x = 0) :
    ∃ h o, run c g = (h, .ok o) ∧ Fuses g (fusedBy c g) h ∧
      o.rewritten = (fusedBy c g).length ∧ (o.changed = true ↔ 0 < o.rewritten) ∧
      (∀ i ∈ fusedBy c g, i.HasProducts g) ∧
      ((∀ i ∈ fusedBy c g, ∀ x ∈ i.nodes, h.contains x = false) ↔
        ∀ i ∈ fusedBy c g, ∀ x ∈ i.nodes, ¬ g.Dead x) ∧
      ((∀ i ∈ fusedBy c g, ∀ x ∈ i.nodes, ¬ g.Dead x) →
        (h.ofKind .matMul).card + 2 * o.rewritten ≤ (g.ofKind .matMul).card) ∧
      (Spared g → (∀ i ∈ fusedBy c g, ∀ x ∈ i.nodes, ¬ g.Dead x) ∧
        ∃ n h' o', 2 * n ≤ (g.ofKind .matMul).card ∧ run c (runs c n g) = (h', .ok o') ∧
          o'.changed = false) := by
  obtain ⟨h, o, e, hfuses, hrewritten, hchanged⟩ := run_eq_ok c hg ht hi
  refine ⟨h, o, e, hfuses, hrewritten, ?_, ?_, hfuses.gone_iff hpins, ?_, ?_⟩
  · rw [hchanged, hrewritten, List.length_pos_iff]
  · intro i hi
    exact hasProducts_of_mem_fusedBy hg.acyclic hi
  · intro hliving
    rw [hrewritten]
    exact card_matMul_le_of_living hg hpins hfuses hliving
  · intro hspared
    constructor
    · intro i hi
      exact hfuses.living_of_spared hspared hi
    · exact exists_unchanged_run c ⟨hg, ht, hi, hpins, hspared⟩

theorem spared_of_tight (ht : g.Tight) : Spared g := fun x _ hx => absurd hx (ht x)

/-- Both products go into the subgraph, and after that run there is one without a change. -/
theorem run_progress_plainAttention : plainAttention.WellFormed ∧
    plainAttention.table = .standard ∧ plainAttention.Inferred ∧
    (∀ x, plainAttention.pins x = 0) ∧ Spared plainAttention ∧
    ∃ h o, run .standard plainAttention = (h, .ok o) ∧ o.rewritten = 1 ∧
      (plainAttention.ofKind .matMul).card = 2 ∧ (h.ofKind .matMul).card = 0 ∧
      ∃ n h' o', n ≤ 1 ∧ run .standard (runs .standard n plainAttention) = (h', .ok o') ∧
        o'.changed = false := by
  have hg : plainAttention.WellFormed := Arena.wellFormed_reached _ _
  have ht : plainAttention.table = .standard := by rfl
  have hi := inferred_plainAttention
  have hpins : ∀ x, plainAttention.pins x = 0 := Arena.pins_eq_zero (by decide)
  have hspared : Spared plainAttention := spared_of_tight (Arena.tight_of_nodeIds (by decide))
  have hproducts : (plainAttention.ofKind .matMul).card = 2 := by decide
  obtain ⟨h, o, e, -, -, -, -, -, hcard, hruns⟩ := run_progress .standard hg ht hi hpins
  obtain ⟨hliving, n, h', o', hn, e', hunchanged⟩ := hruns hspared
  have hcard := hcard hliving
  have hrewritten : (run .standard plainAttention).2.toOption.map Outcome.rewritten = some 1 := by
    cbv
  rw [e] at hrewritten
  have hone := Option.some.inj hrewritten
  exact ⟨hg, ht, hi, hpins, hspared, h, o, e, hone, hproducts, by omega, n, h', o', by omega, e',
    hunchanged⟩

/-- Attention that nothing reads, not even a result. -/
def unreadAttention : Graph := Arena.reached .standard [
  .addParameter "q" ⟨.f32, .ofSizes [1, 2, 4, 8]⟩,
  .addParameter "k" ⟨.f32, .ofSizes [1, 2, 4, 8]⟩,
  .addParameter "v" ⟨.f32, .ofSizes [1, 2, 4, 8]⟩,
  .addNode (Primitive.matMul false true) [⟨⟨0, 0⟩, 0⟩, ⟨⟨1, 0⟩, 0⟩],
  .addNode (Primitive.softmax (-1)) [⟨⟨3, 0⟩, 0⟩],
  .addNode (Primitive.matMul false false) [⟨⟨4, 0⟩, 0⟩, ⟨⟨2, 0⟩, 0⟩]]

theorem inferred_unreadAttention : unreadAttention.Inferred := by
  apply Arena.inferred_of_nodeIds
  have hids : unreadAttention.nodeIds =
      [⟨0, 0⟩, ⟨1, 0⟩, ⟨2, 0⟩, ⟨3, 0⟩, ⟨4, 0⟩, ⟨5, 0⟩] := by rfl
  rw [hids]
  simp only [List.forall_mem_cons, List.not_mem_nil, false_implies, implies_true, and_true]
  refine ⟨?_, ?_, ?_, ?_, ?_, ?_⟩ <;> rfl

/-- A run reports a change and one fusion here, and both products are still there. The next run
reports a change again. -/
theorem products_of_unreadAttention : unreadAttention.WellFormed ∧
    unreadAttention.table = .standard ∧ unreadAttention.Inferred ∧
    (∀ x, unreadAttention.pins x = 0) ∧
    ∃ h o, run .standard unreadAttention = (h, .ok o) ∧ o.changed = true ∧ o.rewritten = 1 ∧
      h.contains ⟨3, 0⟩ = true ∧ h.contains ⟨5, 0⟩ = true ∧
      (unreadAttention.ofKind .matMul).card < (h.ofKind .matMul).card + 2 * o.rewritten ∧
      (run .standard h).2.toOption.map Outcome.changed = some true := by
  have hg : unreadAttention.WellFormed := Arena.wellFormed_reached _ _
  have ht : unreadAttention.table = .standard := by rfl
  have hi := inferred_unreadAttention
  have hpins : ∀ x, unreadAttention.pins x = 0 := Arena.pins_eq_zero (by decide)
  have hbefore : (unreadAttention.ofKind .matMul).card = 2 := by decide
  obtain ⟨h, o, e, -⟩ := run_eq_ok .standard hg ht hi
  have hreport : (run .standard unreadAttention).2.toOption.map
      (fun o => (o.changed, o.rewritten)) = some (true, 1) := by cbv
  have hfirst : (run .standard unreadAttention).1.kind? ⟨3, 0⟩ = some .matMul := by cbv
  have hsecond : (run .standard unreadAttention).1.kind? ⟨5, 0⟩ = some .matMul := by cbv
  have hagain : (run .standard (run .standard unreadAttention).1).2.toOption.map
      Outcome.changed = some true := by cbv
  rw [e] at hreport hfirst hsecond hagain
  obtain ⟨hchanged, hrewritten⟩ := Prod.mk.inj (Option.some.inj hreport)
  have hproducts : ({⟨3, 0⟩, ⟨5, 0⟩} : Finset NodeId) ⊆ h.ofKind .matMul := by
    intro x hx
    rcases Finset.mem_insert.mp hx with rfl | hx
    · exact Arena.mem_ofKind.mpr hfirst
    · exact Arena.mem_ofKind.mpr (Finset.mem_singleton.mp hx ▸ hsecond)
  have hafter : 2 ≤ (h.ofKind .matMul).card := Finset.card_le_card hproducts
  exact ⟨hg, ht, hi, hpins, h, o, e, hchanged, hrewritten, Arena.contains_of_kind? hfirst,
    Arena.contains_of_kind? hsecond, by omega, hagain⟩

end Attention

end TensorGraph
