import Mathlib
import TensorGraph.Proofs.Pass.Builtin

/-! # Fixed points

A pipeline stops after a sweep in which no pass reports a change. A pass that reports none may
still have released what it matched, and may have made room for another pass by that. In a tight
graph nothing can be released, and the graph at the end is a fixed point of every pass.
-/

namespace TensorGraph.Pipeline

open PatternPass (Quiet)

variable {passes : List Pass} {g h : Graph} {outcomes : List Outcome} {stats s : Stats} {more : Nat}

theorem runChecked_eq {p : Pass} (hp : p.Sound) (hg : g.WellFormed) :
    p.runChecked g = p.run g := by
  have hwf := hp.wellFormed g hg
  unfold Pass.runChecked
  split
  · rename_i h e hrun
    exact hrun.symm
  · rename_i h o hrun
    rw [hrun] at hwf
    rw [hwf.validate]
    split <;> exact hrun.symm

/-- A sweep that succeeds: the first pass, and then the others. -/
theorem sweep_cons_eq_ok {p : Pass} (hp : p.Sound) (hg : g.WellFormed)
    (e : sweep (p :: passes) g = (h, .ok outcomes)) :
    ∃ i o rest, p.run g = (i, .ok o) ∧ sweep passes i = (h, .ok rest) ∧ outcomes = o :: rest := by
  unfold sweep at e
  rw [runChecked_eq hp hg] at e
  split at e
  · cases (Prod.mk.inj e).2
  rename_i i o hrun
  split at e
  · cases (Prod.mk.inj e).2
  rename_i j rest hrest
  obtain ⟨rfl, he⟩ := Prod.mk.inj e
  exact ⟨i, o, rest, hrun, hrest, (Except.ok.inj he).symm⟩

section Sweep

variable (hs : ∀ p ∈ passes, p.Sound)
include hs

theorem sweep_wellFormed (hg : g.WellFormed) : (sweep passes g).1.WellFormed := by
  induction passes generalizing g with
  | nil => exact hg
  | cons p passes ih =>
    obtain ⟨hp, hs⟩ := List.forall_mem_cons.mp hs
    unfold sweep
    rw [runChecked_eq hp hg]
    split
    · rename_i i e hrun
      exact hp.wellFormed_of hg hrun
    · rename_i i o hrun
      have hrest := ih hs (hp.wellFormed_of hg hrun)
      split <;> rename_i he <;> rwa [he] at hrest

theorem sweep_tight (hg : g.WellFormed) (ht : g.Tight)
    (e : sweep passes g = (h, .ok outcomes)) : h.Tight := by
  induction passes generalizing g outcomes with
  | nil => exact (Prod.mk.inj e).1 ▸ ht
  | cons p passes ih =>
    obtain ⟨hp, hs⟩ := List.forall_mem_cons.mp hs
    obtain ⟨i, o, rest, hrun, hrest, rfl⟩ := sweep_cons_eq_ok hp hg e
    have htight := hp.tight g hg ht
    rw [hrun] at htight
    exact ih hs (hp.wellFormed_of hg hrun) htight hrest

theorem sweep_quiet (hg : g.WellFormed) (e : sweep passes g = (h, .ok outcomes))
    (ho : ∀ o ∈ outcomes, o.changed = false) : ∃ k, Quiet g k h := by
  induction passes generalizing g outcomes with
  | nil => exact ⟨0, (Prod.mk.inj e).1 ▸ .refl g⟩
  | cons p passes ih =>
    obtain ⟨hp, hs⟩ := List.forall_mem_cons.mp hs
    obtain ⟨i, o, rest, hrun, hrest, rfl⟩ := sweep_cons_eq_ok hp hg e
    obtain ⟨ho, horest⟩ := List.forall_mem_cons.mp ho
    have hwf := hp.wellFormed_of hg hrun
    obtain ⟨k, hq⟩ := ih hs hwf hrest horest
    exact ⟨_, (hp.quiet g i o hg hrun ho).trans hq⟩

theorem settled_of_sweep (hg : g.WellFormed) (e : sweep passes g = (h, .ok outcomes))
    (ho : ∀ o ∈ outcomes, o.changed = false) (hocc : h.occupied = g.occupied) :
    ∀ p ∈ passes, p.Settled g := by
  induction passes generalizing g outcomes with
  | nil => exact fun _ hp => absurd hp List.not_mem_nil
  | cons p passes ih =>
    obtain ⟨hp, hs⟩ := List.forall_mem_cons.mp hs
    obtain ⟨i, o, rest, hrun, hrest, rfl⟩ := sweep_cons_eq_ok hp hg e
    obtain ⟨ho, horest⟩ := List.forall_mem_cons.mp ho
    have hq := hp.quiet g i o hg hrun ho
    have hwf := hp.wellFormed_of hg hrun
    obtain ⟨k, hq'⟩ := sweep_quiet hs hwf hrest horest
    have := hq.occupied
    have := hq'.occupied
    obtain rfl : i = g := hq.same (by omega)
    exact List.forall_mem_cons.mpr ⟨⟨o, hrun, ho⟩, ih hs hg hrest horest hocc⟩

theorem sweep_of_settled (hg : g.WellFormed) (hsettled : ∀ p ∈ passes, p.Settled g) :
    ∃ outcomes, sweep passes g = (g, .ok outcomes) ∧ ∀ o ∈ outcomes, o.changed = false := by
  induction passes with
  | nil => exact ⟨[], rfl, fun _ ho => absurd ho List.not_mem_nil⟩
  | cons p passes ih =>
    obtain ⟨hp, hs⟩ := List.forall_mem_cons.mp hs
    obtain ⟨⟨o, hrun, ho⟩, hsettled⟩ := List.forall_mem_cons.mp hsettled
    obtain ⟨rest, hrest, horest⟩ := ih hs hsettled
    refine ⟨o :: rest, ?_, List.forall_mem_cons.mpr ⟨ho, horest⟩⟩
    unfold sweep
    rw [runChecked_eq hp hg, hrun]
    dsimp only
    rw [hrest]

theorem settled_of_tight (hg : g.WellFormed) (ht : g.Tight)
    (e : sweep passes g = (h, .ok outcomes)) (ho : ∀ o ∈ outcomes, o.changed = false) :
    h = g ∧ ∀ p ∈ passes, p.Settled g := by
  induction passes generalizing outcomes with
  | nil => exact ⟨(Prod.mk.inj e).1.symm, fun _ hp => absurd hp List.not_mem_nil⟩
  | cons p passes ih =>
    obtain ⟨hp, hs⟩ := List.forall_mem_cons.mp hs
    obtain ⟨i, o, rest, hrun, hrest, rfl⟩ := sweep_cons_eq_ok hp hg e
    obtain ⟨ho, horest⟩ := List.forall_mem_cons.mp ho
    obtain rfl := hp.still g i o hg ht hrun ho
    obtain ⟨hh, hsettled⟩ := ih hs hrest horest
    exact ⟨hh, List.forall_mem_cons.mpr ⟨⟨o, hrun, ho⟩, hsettled⟩⟩

theorem length_outcomes (hg : g.WellFormed) (e : sweep passes g = (h, .ok outcomes)) :
    outcomes.length = passes.length := by
  induction passes generalizing g outcomes with
  | nil =>
    obtain rfl := Except.ok.inj (Prod.mk.inj e).2
    rfl
  | cons p passes ih =>
    obtain ⟨hp, hs⟩ := List.forall_mem_cons.mp hs
    obtain ⟨i, o, rest, hrun, hrest, rfl⟩ := sweep_cons_eq_ok hp hg e
    have hwf := hp.wellFormed_of hg hrun
    exact congrArg (· + 1) (ih hs hwf hrest)

end Sweep

theorem changedNames_eq_nil_iff (h : outcomes.length = passes.length) :
    changedNames passes outcomes = [] ↔ ∀ o ∈ outcomes, o.changed = false := by
  rw [changedNames, List.map_eq_nil_iff, List.filter_eq_nil_iff]
  constructor
  · intro hall o ho
    obtain ⟨i, hi⟩ := List.mem_iff_getElem?.mp ho
    have hlt : i < passes.length := h ▸ (List.getElem?_eq_some_iff.mp hi).1
    have hmem : (passes[i], o) ∈ passes.zip outcomes :=
      List.mem_of_getElem? (List.getElem?_zip_eq_some.mpr ⟨List.getElem?_eq_getElem hlt, hi⟩)
    simpa using hall _ hmem
  · intro hall x hx
    simp [hall x.2 (List.of_mem_zip hx).2]

theorem changed_foldl_merge {o : Outcome} :
    (outcomes.foldl Outcome.merge o).changed = false ↔
      o.changed = false ∧ ∀ x ∈ outcomes, x.changed = false := by
  induction outcomes generalizing o with
  | nil => simp
  | cons x outcomes ih =>
    rw [List.foldl_cons, ih, List.forall_mem_cons, Outcome.merge, Bool.or_eq_false_iff, and_assoc]

/-! ### The last sweep -/

theorem iterate_eq_ok (e : iterate passes more stats g = (h, .ok s)) :
    ∃ i outcomes, sweep passes g = (i, .ok outcomes) ∧
      ((changedNames passes outcomes = [] ∧ h = i ∧ s = stats.addSweep outcomes) ∨
        (changedNames passes outcomes ≠ [] ∧ ∃ rest, more = rest + 1 ∧
          iterate passes rest (stats.addSweep outcomes) i = (h, .ok s))) := by
  unfold iterate at e
  split at e
  · cases (Prod.mk.inj e).2
  rename_i i outcomes hsweep
  refine ⟨i, outcomes, hsweep, ?_⟩
  dsimp only at e
  split at e
  · rename_i hnil
    obtain ⟨rfl, he⟩ := Prod.mk.inj e
    exact .inl ⟨hnil, rfl, (Except.ok.inj he).symm⟩
  · cases (Prod.mk.inj e).2
  · rename_i rest hne
    exact .inr ⟨hne, rest, rfl, e⟩

theorem lt_sweeps (e : iterate passes more stats g = (h, .ok s)) : stats.sweeps < s.sweeps := by
  induction more generalizing stats g with
  | zero =>
    obtain ⟨i, outcomes, -, ⟨-, -, rfl⟩ | ⟨-, rest, hr, -⟩⟩ := iterate_eq_ok e
    · exact Nat.lt_succ_self _
    · cases hr
  | succ more ih =>
    obtain ⟨i, outcomes, -, ⟨-, -, rfl⟩ | ⟨-, rest, hr, he⟩⟩ := iterate_eq_ok e
    · exact Nat.lt_succ_self _
    · obtain rfl := Nat.succ.inj hr
      exact (Nat.lt_succ_self _).trans (ih he)

theorem last_sweep (hs : ∀ p ∈ passes, p.Sound) (hg : g.WellFormed)
    (e : iterate passes more stats g = (h, .ok s)) :
    ∃ i outcomes, i.WellFormed ∧ (g.Tight → i.Tight) ∧ sweep passes i = (h, .ok outcomes) ∧
      ∀ o ∈ outcomes, o.changed = false := by
  induction more generalizing stats g with
  | zero =>
    obtain ⟨i, outcomes, hi, ⟨hnil, rfl, -⟩ | ⟨-, rest, hr, -⟩⟩ := iterate_eq_ok e
    · exact ⟨g, outcomes, hg, fun ht => ht, hi,
        (changedNames_eq_nil_iff (length_outcomes hs hg hi)).mp hnil⟩
    · cases hr
  | succ more ih =>
    obtain ⟨i, outcomes, hi, ⟨hnil, rfl, -⟩ | ⟨-, rest, hr, he⟩⟩ := iterate_eq_ok e
    · exact ⟨g, outcomes, hg, fun ht => ht, hi,
        (changedNames_eq_nil_iff (length_outcomes hs hg hi)).mp hnil⟩
    · obtain rfl := Nat.succ.inj hr
      have hwf := sweep_wellFormed hs hg
      rw [hi] at hwf
      obtain ⟨j, last, hj, htight, hsweep, ho⟩ := ih hwf he
      exact ⟨j, last, hj, fun ht => htight (sweep_tight hs hg ht hi), hsweep, ho⟩

theorem run_wellFormed (hs : ∀ p ∈ passes, p.Sound) (hg : g.WellFormed)
    (e : iterate passes more stats g = (h, .ok s)) : h.WellFormed := by
  obtain ⟨i, outcomes, hi, -, hsweep, -⟩ := last_sweep hs hg e
  have hwf := sweep_wellFormed hs hi
  rwa [hsweep] at hwf

theorem occupied_congr {β : Type} {a b : Arena β} (h : b.node? = a.node?) :
    b.occupied = a.occupied := by
  rw [← Arena.length_nodeIds, ← Arena.length_nodeIds]
  refine ((List.perm_ext_iff_of_nodup Arena.nodup_nodeIds Arena.nodup_nodeIds).mpr
    fun id => ?_).length_eq
  rw [Arena.mem_nodeIds_iff, Arena.mem_nodeIds_iff, h]

/-- A second run stops after one sweep that reports no change and leaves every node as it is. -/
def Repeats (p : Pipeline) (h : Graph) : Prop :=
  ∃ h' s', p.run h = (h', .ok s') ∧ s'.sweeps = 1 ∧ s'.total.changed = false ∧ h'.node? = h.node?

theorem repeats_iff {p : Pipeline} (hs : ∀ q ∈ p.passes, q.Sound) (hh : h.WellFormed) :
    p.Repeats h ↔ ∀ q ∈ p.passes, q.Settled h := by
  constructor
  · rintro ⟨h', s', e, hsweeps, hchanged, hnode⟩
    obtain ⟨i, outcomes, hi, ⟨-, rfl, rfl⟩ | ⟨-, rest, -, he⟩⟩ := iterate_eq_ok e
    · have ho := (changed_foldl_merge.mp hchanged).2
      exact settled_of_sweep hs hh hi ho (occupied_congr hnode)
    · have hlt := lt_sweeps he
      rw [hsweeps] at hlt
      exact absurd hlt (by simp [Stats.addSweep, Stats.start])
  · intro hsettled
    obtain ⟨outcomes, hsweep, ho⟩ := sweep_of_settled hs hh hsettled
    have hnil := (changedNames_eq_nil_iff (length_outcomes hs hh hsweep)).mpr ho
    refine ⟨h, (Stats.start p.passes).addSweep outcomes, ?_, rfl,
      changed_foldl_merge.mpr ⟨rfl, ho⟩, rfl⟩
    unfold run iterate
    rw [hsweep]
    dsimp only
    rw [hnil]

/-- A successful run ends at a fixed point exactly if every pass is settled there, as every pass
is if nothing was dead at the start. The standard pipeline is one of those meant here. -/
theorem repeats_of_run (bs : List Builtin) (maxSweeps : Nat) (hg : g.WellFormed)
    (e : run ⟨bs.map Builtin.pass, maxSweeps⟩ g = (h, .ok s)) :
    (Repeats ⟨bs.map Builtin.pass, maxSweeps⟩ h ↔ ∀ b ∈ bs, b.pass.Settled h) ∧
      (g.Tight → Repeats ⟨bs.map Builtin.pass, maxSweeps⟩ h) ∧
      Pipeline.standard =
        ⟨Builtin.standard.map Builtin.pass, Pipeline.standard.maxSweeps⟩ := by
  have hs := Builtin.sound_map bs
  have hh := run_wellFormed hs hg e
  have hiff := repeats_iff (p := ⟨bs.map Builtin.pass, maxSweeps⟩) hs hh
  refine ⟨hiff.trans List.forall_mem_map, ?_, by rw [Builtin.map_pass_standard]⟩
  intro ht
  obtain ⟨i, outcomes, hi, htight, hsweep, ho⟩ := last_sweep hs hg e
  obtain ⟨rfl, hsettled⟩ := settled_of_tight hs hi (htight ht) hsweep ho
  exact hiff.mpr hsettled

/-! ### Two small graphs -/

theorem exists_of_run {p : Pipeline} {k : Nat}
    (hk : (p.run g).2.toOption.map Stats.sweeps = some k) :
    ∃ s, p.run g = ((p.run g).1, .ok s) ∧ s.sweeps = k := by
  obtain ⟨s, hs, hk⟩ := map_toOption_eq_some_iff.mp hk
  exact ⟨s, Prod.ext rfl hs, hk⟩

def slotOf (op : Operation Body) (inputs : List Value) (outputs : List Output) : Slot Body :=
  ⟨0, 0, some ⟨op, inputs, outputs, "", .empty⟩⟩

def first (index : Nat) : Value := ⟨⟨index, 0⟩, 0⟩

def reader (index port : Nat) : Use := ⟨⟨index, 0⟩, port⟩

def f32 (sizes : List Nat) : Spec := ⟨.f32, .ofSizes sizes⟩

/-- A reshape that changes nothing, between a parameter and a result. -/
def echo : Graph where
  slots := #[
    slotOf (Primitive.parameter (f32 [2, 3])) [] [⟨f32 [2, 3], [reader 1 0]⟩],
    slotOf (Primitive.reshape [2, 3] false) [first 0] [⟨f32 [2, 3], [reader 2 0]⟩],
    slotOf Primitive.result [first 1] []]
  free := []
  parameters := [⟨0, 0⟩]
  results := [⟨2, 0⟩]
  live := 3
  version := 0
  table := .standard

def reshapes : Pipeline := ⟨[Builtin.rewriting .reshape].map Builtin.pass, 16⟩

theorem wellFormed_echo : echo.WellFormed :=
  Arena.wellFormed_of_validate (by cbv) (by decide) (by decide) (by decide)
    (fun _ h => absurd h List.not_mem_nil) (by cbv)

theorem tight_echo : echo.Tight := Arena.tight_of_nodeIds (by
  have hids : echo.nodeIds = [⟨0, 0⟩, ⟨1, 0⟩, ⟨2, 0⟩] := by rfl
  rw [hids]
  simp only [List.forall_mem_cons, List.not_mem_nil, false_implies, implies_true, and_true]
  refine ⟨?_, ?_, ?_⟩ <;> rfl)

/-- The reshape is dropped in the first sweep, and the second sweep finds nothing to do. -/
theorem repeats_echo : ∃ h s, reshapes.run echo = (h, .ok s) ∧ s.sweeps = 2 ∧ reshapes.Repeats h := by
  have hstats : (reshapes.run echo).2.toOption.map Stats.sweeps = some 2 := by cbv
  obtain ⟨s, e, hsweeps⟩ := exists_of_run hstats
  exact ⟨_, s, e, hsweeps, (repeats_of_run [.rewriting .reshape] 16 wellFormed_echo e).2.1 tight_echo⟩

/-- A product that a sum and a reshape read, where nothing reads the reshape. -/
def dangling : Graph where
  slots := #[
    slotOf (Primitive.parameter (f32 [1, 2])) [] [⟨f32 [1, 2], [reader 3 0]⟩],
    slotOf (Primitive.parameter (f32 [3, 2])) [] [⟨f32 [3, 2], [reader 3 1]⟩],
    slotOf (Primitive.constant (.splat .f32 [3] 1)) [] [⟨f32 [3], [reader 4 1]⟩],
    slotOf Primitive.fullyConnected [first 0, first 1] [⟨f32 [1, 3], [reader 4 0, reader 5 0]⟩],
    slotOf Primitive.add [first 3, first 2] [⟨f32 [1, 3], [reader 6 0]⟩],
    slotOf (Primitive.reshape [3] false) [first 3] [⟨f32 [3], []⟩],
    slotOf Primitive.result [first 4] []]
  free := []
  parameters := [⟨0, 0⟩, ⟨1, 0⟩]
  results := [⟨6, 0⟩]
  live := 7
  version := 0
  table := .standard

def fusions : Pipeline :=
  ⟨[Builtin.rewriting .biasFusion, .rewriting .reshape].map Builtin.pass, 16⟩

theorem wellFormed_dangling : dangling.WellFormed :=
  Arena.wellFormed_of_validate (by cbv) (by decide) (by decide) (by decide)
    (fun _ h => absurd h List.not_mem_nil) (by cbv)

/-- What the fusions make of it: the sum is declined, and the reshape released with its match. -/
def dangled : Graph where
  slots := #[
    ⟨0, 0, some ⟨Primitive.parameter ⟨.f32, .ofSizes [1, 2]⟩, [],
      [⟨⟨.f32, .ofSizes [1, 2]⟩, [⟨⟨3, 0⟩, 0⟩]⟩], "", .empty⟩⟩,
    ⟨0, 0, some ⟨Primitive.parameter ⟨.f32, .ofSizes [3, 2]⟩, [],
      [⟨⟨.f32, .ofSizes [3, 2]⟩, [⟨⟨3, 0⟩, 1⟩]⟩], "", .empty⟩⟩,
    ⟨0, 0, some ⟨Primitive.constant (.splat .f32 [3] 1), [],
      [⟨⟨.f32, .ofSizes [3]⟩, [⟨⟨4, 0⟩, 1⟩]⟩], "", .empty⟩⟩,
    ⟨0, 0, some ⟨Primitive.fullyConnected, [⟨⟨0, 0⟩, 0⟩, ⟨⟨1, 0⟩, 0⟩],
      [⟨⟨.f32, .ofSizes [1, 3]⟩, [⟨⟨4, 0⟩, 0⟩]⟩], "", .empty⟩⟩,
    ⟨0, 0, some ⟨Primitive.add, [⟨⟨3, 0⟩, 0⟩, ⟨⟨2, 0⟩, 0⟩],
      [⟨⟨.f32, .ofSizes [1, 3]⟩, [⟨⟨6, 0⟩, 0⟩]⟩], "", .empty⟩⟩,
    ⟨1, 0, none⟩,
    ⟨0, 0, some ⟨Primitive.result, [⟨⟨4, 0⟩, 0⟩], [], "", .empty⟩⟩]
  free := [5]
  parameters := [⟨0, 0⟩, ⟨1, 0⟩]
  results := [⟨6, 0⟩]
  live := 6
  version := 1
  table := .standard

theorem wellFormed_dangled : dangled.WellFormed :=
  Arena.wellFormed_of_validate (by cbv) (by decide) (by decide) (by decide)
    (List.forall_mem_singleton.mpr ⟨⟨1, 0, none⟩, rfl, rfl, rfl⟩) (by cbv)

theorem tight_dangled : dangled.Tight := Arena.tight_of_nodeIds (by
  have hids : dangled.nodeIds = [⟨0, 0⟩, ⟨1, 0⟩, ⟨2, 0⟩, ⟨3, 0⟩, ⟨4, 0⟩, ⟨6, 0⟩] := by rfl
  rw [hids]
  simp only [List.forall_mem_cons, List.not_mem_nil, false_implies, implies_true, and_true]
  refine ⟨?_, ?_, ?_, ?_, ?_, ?_⟩ <;> rfl)

theorem fusions_dangling : ∃ s, fusions.run dangling = (dangled, .ok s) ∧ s.sweeps = 1 := by
  have hstats : (fusions.run dangling).2.toOption.map Stats.sweeps = some 1 := by cbv
  have hgraph : (fusions.run dangling).1 = dangled := by cbv
  obtain ⟨s, e, hsweeps⟩ := exists_of_run hstats
  rw [hgraph] at e
  exact ⟨s, e, hsweeps⟩

theorem not_settled_dangled : ¬ (Builtin.rewriting .biasFusion).pass.Settled dangled := by
  intro hsettled
  have hplan : ((BiasFusion.plain.matchAt? dangled ⟨4, 0⟩).map fun m =>
      (BiasFusion.plain.rewrite (dangled.pinned m.nodes) m).map Plan.isEmpty) =
        some (.ok false) := by rfl
  obtain ⟨m, hm, hplan⟩ := Option.map_eq_some_iff.mp hplan
  obtain ⟨plan, hplan, hempty⟩ := map_eq_ok_iff.mp hplan
  have hroot : dangled.contains ⟨4, 0⟩ = true := by cbv
  have hdeclined := Pass.Settled.declines hsettled wellFormed_dangled tight_dangled hroot hm
  rw [hdeclined.isEmpty hplan] at hempty
  cases hempty

/-- Nothing changes in the only sweep, but what it releases lets the first pass fuse the sum. -/
theorem not_repeats_dangling : dangling.WellFormed ∧
    ∃ h s, fusions.run dangling = (h, .ok s) ∧ s.sweeps = 1 ∧ ¬ fusions.Repeats h := by
  obtain ⟨s, e, hsweeps⟩ := fusions_dangling
  refine ⟨wellFormed_dangling, dangled, s, e, hsweeps, fun hrepeats => ?_⟩
  have hsettled := (repeats_iff (Builtin.sound_map _) wellFormed_dangled).mp hrepeats
  exact not_settled_dangled (hsettled _ List.mem_cons_self)

end TensorGraph.Pipeline
