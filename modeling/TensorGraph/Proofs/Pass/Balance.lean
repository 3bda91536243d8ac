import TensorGraph.Proofs.Pass.FixedPoint
import TensorGraph.Proofs.Pass.Unpinning
import TensorGraph.Proofs.Pattern.Kinds

/-! # Balance

Whatever a pattern pass asks for, a run gives every pin back that it takes, and the live nodes can
be counted from what its commits insert and from what it says was released. It fails only if a
commit is rejected, or where it is stopped by a count that leaves its range.
-/

namespace TensorGraph

namespace Arena

variable {β : Type} {a b : Arena β} {x : NodeId} {p : Plan β} {ids : List NodeId}

theorem Rewired.occupied (h : a.Rewired b p ids) : b.occupied = a.occupied + ids.length := by
  have hdisjoint : ∀ x ∈ a.nodeIds, x ∉ ids := fun x hx hm =>
    h.fresh x hm (mem_nodeIds_iff_contains.mp hx)
  have hnodup : (a.nodeIds ++ ids).Nodup :=
    nodup_nodeIds.append h.nodup fun x hx hm => hdisjoint x hx hm
  have hperm : b.nodeIds.Perm (a.nodeIds ++ ids) := by
    refine (List.perm_ext_iff_of_nodup nodup_nodeIds hnodup).mpr fun x => ?_
    rw [List.mem_append, mem_nodeIds_iff_contains, mem_nodeIds_iff_contains, h.contains_iff]
    exact or_comm
  rw [← length_nodeIds, hperm.length_eq, List.length_append, length_nodeIds]

/-- What a commit inserts and what it releases account for the change of occupied slots. -/
theorem WellFormed.occupied_apply (ha : a.WellFormed) (hp : p.Accepted a) :
    (a.apply p).1.occupied + (a.apply p).2.released =
      a.occupied + (a.apply p).2.inserted.length := by
  rw [apply_eq, ← (rewired_rewire ha hp).occupied]
  exact (releases_released a p).occupied

end Arena

/-! ### Nodes of a match -/

mutual
theorem Term.wraps_any : ∀ t : Term, t.Wraps fun _ => True
  | .input _ _ => trivial
  | .wrap _ _ inputs _ => ⟨fun _ _ => trivial, wrapsAll_any inputs⟩
  | .optional _ _ inputs _ => ⟨fun _ _ => trivial, wrapsAll_any inputs⟩
  | .oneOf _ branches => wrapsAll_any branches

theorem Term.wrapsAll_any : ∀ ts : List Term, WrapsAll (fun _ => True) ts
  | [] => trivial
  | t :: ts => ⟨wraps_any t, wrapsAll_any ts⟩
end

theorem PatternPass.contains_of_matchAt? {p : PatternPass} {g : Graph} {root : NodeId} {m : Match}
    (h : p.matchAt? g root = some m) : ∀ id ∈ m.nodes, g.contains id = true := by
  intro id hid
  obtain ⟨k, hk, -⟩ :=
    Pattern.kind?_of_mem_nodes p.pattern.root.wraps_any (p.matchNode_of_matchAt? h) hid
  exact Arena.contains_of_kind? hk

namespace PatternPass

open Arena

variable {p : PatternPass} {g h : Graph} {root : NodeId} {roots : List NodeId} {m : Match}
variable {o : Outcome}

/-! ### Visits of a run -/

/-- A match of a run, and the graph in which it is found. -/
structure Visit where
  root : NodeId
  found : Match
  before : Graph

namespace Visit

/-- The graph that the rewrite sees, in which the matched nodes are pinned. -/
def graph (v : Visit) : Graph := v.before.pinned v.found.nodes

/-- A matched node has so many pins that no more can be counted. -/
def Saturated (v : Visit) : Prop := ∃ x ∈ v.found.nodes, v.before.pins x = pinLimit

def commit (p : PatternPass) (v : Visit) : Graph × Except GraphError (Option Commit) :=
  p.commitMatch v.graph v.found

def failure (p : PatternPass) (v : Visit) : Option GraphError :=
  (unpinAll (v.commit p).1 v.found.nodes).2.2

def inserted (p : PatternPass) (v : Visit) : Nat :=
  match (v.commit p).2 with
  | .ok (some done) => done.inserted.length
  | _ => 0

/-- The program ends at the visit: there is no room for a pin, or the rewrite overflows. -/
def Overflows (p : PatternPass) (v : Visit) : Prop :=
  v.Saturated ∨ p.rewrite v.graph v.found = .error .overflow

def Rejected (p : PatternPass) (v : Visit) (cause : GraphError) : Prop :=
  ∃ plan, p.rewrite v.graph v.found = .ok plan ∧ v.graph.commit plan = .error cause

end Visit

def visits (p : PatternPass) : List NodeId → Graph → List Visit
  | [], _ => []
  | root :: roots, g =>
    match p.matchAt? g root with
    | none => visits p roots g
    | some m =>
      ⟨root, m, g⟩ :: match p.visitMatch g root m with
        | (_, .error _) => []
        | (h, .ok _) => visits p roots h

def trace (p : PatternPass) (g : Graph) : List Visit :=
  match g.topologicalOrder with
  | .error _ => []
  | .ok order => p.visits order g

/-- A run visits graphs in which whatever the pass keeps still holds. -/
theorem Keeps.visits {P : Graph → Prop} {u : Visit} (hP : p.Keeps P) (hg : P g)
    (hu : u ∈ p.visits roots g) : P u.before ∧ p.matchAt? u.before u.root = some u.found := by
  induction roots generalizing g with
  | nil => exact absurd hu List.not_mem_nil
  | cons root roots ih =>
    unfold PatternPass.visits at hu
    split at hu
    · exact ih hg hu
    · rename_i m hm
      rcases List.mem_cons.mp hu with rfl | hu
      · exact ⟨hg, hm⟩
      · split at hu
        · exact absurd hu List.not_mem_nil
        · rename_i h o he
          have hvisit := hP.visitMatch hg (matchNode_of_matchAt? hm)
          rw [he] at hvisit
          exact ih hvisit hu

theorem Keeps.trace {P : Graph → Prop} {u : Visit} (hP : p.Keeps P) (hg : P g)
    (hu : u ∈ p.trace g) : P u.before ∧ p.matchAt? u.before u.root = some u.found := by
  unfold PatternPass.trace at hu
  split at hu
  · exact absurd hu List.not_mem_nil
  · exact hP.visits hg hu

theorem Visit.saturated_iff {v : Visit} (hlive : ∀ x ∈ v.found.nodes, v.before.contains x = true) :
    v.Saturated ↔ ¬ v.before.Pinnable v.found.nodes := by
  unfold Visit.Saturated Arena.Pinnable
  push Not
  refine exists_congr fun x => and_congr_right fun hx => ?_
  have hle : v.before.pins x ≤ pinLimit := pins_le_limit x
  constructor
  · exact fun he _ => he.ge
  · exact fun hlt => le_antisymm hle (hlt (hlive x hx))

theorem commitMatch_balanced (hg : g.WellFormed) (p : PatternPass) (m : Match) :
    (p.commitMatch g m).1.pins = g.pins ∧
    (∀ x, g.contains x = true → g.pins x ≠ 0 → (p.commitMatch g m).1.contains x = true) := by
  rcases p.commitMatch_cases g m with ⟨plan, -, -, hp, hc⟩ | ⟨hc, -⟩ | ⟨e, hc⟩
  · rw [hc]
    exact ⟨hg.pins_apply hp, fun x hx => hg.contains_apply hp hx⟩
  · rw [hc]
    exact ⟨rfl, fun x hx _ => hx⟩
  · rw [hc]
    exact ⟨rfl, fun x hx _ => hx⟩

theorem rejected_of_commitMatch {v : Visit} {i : Graph} {cause : GraphError}
    (h : p.commitMatch v.graph v.found = (i, .error cause))
    (hfits : p.rewrite v.graph v.found ≠ .error .overflow) : v.Rejected p cause := by
  unfold PatternPass.commitMatch at h
  split at h
  · rename_i hover
    exact absurd hover hfits
  · cases (Prod.mk.inj h).2
  · rename_i plan hplan
    split at h
    · cases (Prod.mk.inj h).2
    · split at h
      · cases (Prod.mk.inj h).2
      · rename_i e he
        obtain rfl := Except.error.inj (Prod.mk.inj h).2
        exact ⟨plan, hplan, he⟩

theorem Visit.Rejected.ne_overflow {v : Visit} {cause : GraphError} (h : v.Rejected p cause) :
    cause ≠ .overflow := by
  rintro rfl
  obtain ⟨plan, -, he⟩ := h
  exact commit_ne_overflow he

theorem Visit.Rejected.ofEdit {v : Visit} {cause : GraphError} (h : v.Rejected p cause) :
    TransformError.ofEdit p.name (some v.root) cause =
      .invariantViolation p.name (some v.root) cause := by
  have hne := h.ne_overflow
  cases cause <;> first | exact absurd rfl hne | rfl

theorem Visit.exists_rejected {v : Visit} {k : Nat} {e : TransformError}
    (hfits : p.rewrite v.graph v.found ≠ .error .overflow)
    (h : p.added v.root k (v.commit p).2 = .error e) :
    ∃ cause, v.Rejected p cause ∧ e = .invariantViolation p.name (some v.root) cause := by
  rcases hc : v.commit p with ⟨i, cause | _ | done⟩
  · have hrejected : v.Rejected p cause := rejected_of_commitMatch hc hfits
    rw [hc, added, hrejected.ofEdit] at h
    exact ⟨cause, hrejected, (Except.error.inj h).symm⟩
  · rw [hc] at h
    cases h
  · rw [hc] at h
    cases h

/-- What is inserted and released at a visit accounts for the change of occupied slots. -/
theorem Visit.occupied_commit {v : Visit} {k : Nat} (hg : v.graph.WellFormed)
    (h : p.added v.root k (v.commit p).2 = .ok o) :
    (v.commit p).1.occupied + o.released = v.graph.occupied + k + v.inserted p := by
  rcases p.commitMatch_cases v.graph v.found with
    ⟨plan, -, -, hp, hc⟩ | ⟨hc, -⟩ | ⟨cause, hc⟩
  · have hc' : v.commit p = _ := hc
    rw [hc'] at h
    obtain rfl := Except.ok.inj h
    have hcount := hg.occupied_apply hp
    rw [Visit.inserted, hc']
    dsimp only
    omega
  · have hc' : v.commit p = _ := hc
    rw [hc'] at h
    obtain rfl := Except.ok.inj h
    rw [Visit.inserted, hc']
    rfl
  · have hc' : v.commit p = _ := hc
    rw [hc'] at h
    cases h

/-- What becomes of a graph by a list of visits. -/
structure Balanced (p : PatternPass) (g : Graph) (o : Outcome) (vs : List Visit)
    (r : Run Outcome) : Prop where
  wellFormed : r.1.WellFormed
  pins : r.1.pins = g.pins
  found : ∀ v ∈ vs, v.before.pins = g.pins
  unpinned : ∀ v ∈ vs, ¬ v.Saturated → v.failure p = none
  overflow : r.2 = .error .overflow ↔ ∃ v ∈ vs, v.Overflows p
  error : ∀ e, r.2 = .error e → e ≠ .overflow → ∃ v ∈ vs, ∃ cause, v.Rejected p cause ∧
    e = .invariantViolation p.name (some v.root) cause
  occupied : ∀ o', r.2 = .ok o' → r.1.occupied + o'.released =
    g.occupied + o.released + (vs.map (Visit.inserted p)).sum

/-- A visit that cannot pin all that it matched stops the run. -/
theorem visitMatch_saturated {v : Visit} (hlive : ∀ id ∈ v.found.nodes, v.before.contains id = true)
    (hs : v.Saturated) : p.visitMatch v.before v.root v.found = (v.before, .error .overflow) := by
  have hpin := pinAll_eq_overflow v.found.nodup_nodes hlive ((Visit.saturated_iff hlive).mp hs)
  simp only [visitMatch, hpin]
  rfl

theorem balanced_of_overflows {v : Visit} (hg : v.before.WellFormed)
    (hfailure : ¬ v.Saturated → v.failure p = none) (hover : v.Overflows p) :
    p.Balanced v.before .none [v] (v.before, .error .overflow) where
  wellFormed := hg
  pins := rfl
  found := List.forall_mem_singleton.mpr rfl
  unpinned := List.forall_mem_singleton.mpr hfailure
  overflow := iff_of_true rfl ⟨v, List.mem_singleton_self v, hover⟩
  error _ he hne := absurd (Except.error.inj he).symm hne
  occupied _ ho := by cases ho

/-- One visit unpins all that it pinned, and fails only if its commit is rejected. -/
theorem visitMatch_balanced (hg : g.WellFormed) (hlive : ∀ id ∈ m.nodes, g.contains id = true) :
    p.Balanced g .none [⟨root, m, g⟩] (p.visitMatch g root m) := by
  let v : Visit := ⟨root, m, g⟩
  by_cases hs : v.Saturated
  · have he : p.visitMatch g root m = (g, .error .overflow) := visitMatch_saturated hlive hs
    rw [he]
    exact balanced_of_overflows (v := v) hg (absurd hs) (.inl hs)
  have hsat : v.Saturated ↔ ¬ g.Pinnable m.nodes := Visit.saturated_iff hlive
  have hpin : g.Pinnable m.nodes := not_not.mp (mt hsat.mpr hs)
  have hwf : (g.pinned m.nodes).WellFormed := hg.pinned hlive
  have hwf' : (v.commit p).1.WellFormed := p.commitMatch_induction hwf fun _ _ hp => hwf.apply hp
  obtain ⟨hpins, hkept⟩ := commitMatch_balanced hwf p m
  have hlive' : ∀ id ∈ m.nodes, (v.commit p).1.contains id = true := fun id hid => by
    refine hkept id (by rw [contains_pinned]; exact hlive id hid) ?_
    rw [pins_pinned m.nodup_nodes hpin, if_pos hid]
    exact Nat.succ_ne_zero _
  obtain ⟨h, k, hunpin, hpart, hrestored, -⟩ :=
    unpinAll_restores hwf' m.nodup_nodes hpin hpins hlive'
  have hocc : h.occupied + k = (v.commit p).1.occupied := by
    have hquiet := (unpinAll_quiet (congrArg (·.2.2) hunpin)).1
    rwa [hunpin] at hquiet
  have hfailure : v.failure p = none := congrArg (·.2.2) hunpin
  by_cases hfits : p.rewrite v.graph v.found = .error .overflow
  · rw [visitMatch_of_overflow hpin hfits]
    exact balanced_of_overflows (v := v) hg (fun _ => hfailure) (.inr hfits)
  have hnone : ¬ ∃ w ∈ [v], w.Overflows p := by
    rintro ⟨w, hw, hover⟩
    obtain rfl := List.mem_singleton.mp hw
    exact hover.elim hs hfits
  have hcommit : (v.commit p).2 ≠ .error .overflow := fun he =>
    (rejected_of_commitMatch (v := v) (Prod.ext rfl he) hfits).ne_overflow rfl
  have hvisit : p.visitMatch g root m = (h, p.added root k (v.commit p).2) :=
    visitMatch_eq hpin rfl hcommit hunpin
  rw [hvisit]
  refine ⟨hpart.wellFormed, hrestored, List.forall_mem_singleton.mpr rfl,
    List.forall_mem_singleton.mpr fun _ => hfailure, iff_of_false (fun he => ?_) hnone,
    fun e he _ => ?_, fun o' ho => ?_⟩
  · obtain ⟨cause, -, hcause⟩ := Visit.exists_rejected (v := v) hfits he
    cases hcause
  · exact ⟨v, List.mem_singleton_self v, Visit.exists_rejected hfits he⟩
  · have hinserted : ([v].map (Visit.inserted p)).sum = v.inserted p := by simp
    have hcount : (v.commit p).1.occupied + o'.released = g.occupied + k + v.inserted p :=
      (Visit.occupied_commit (v := v) hwf ho).trans (by rw [Visit.graph, occupied_pinned])
    calc h.occupied + o'.released
        = g.occupied + v.inserted p := by omega
      _ = g.occupied + 0 + ([v].map (Visit.inserted p)).sum := by rw [hinserted, Nat.add_zero]

theorem visitAll_balanced (hg : g.WellFormed) :
    p.Balanced g o (p.visits roots g) (p.visitAll roots g o) := by
  induction roots generalizing g o with
  | nil =>
    have hnone {P : Visit → Prop} : ∀ v ∈ p.visits [] g, P v := nofun
    refine ⟨hg, rfl, hnone, hnone, ?_, fun e he => (by cases he), fun o' ho => ?_⟩
    · exact iff_of_false nofun fun ⟨v, hv, _⟩ => absurd hv List.not_mem_nil
    · obtain rfl := Except.ok.inj ho
      rfl
  | cons root roots ih =>
    cases hm : p.matchAt? g root with
    | none =>
      simp only [visitAll, visits, hm]
      exact ih hg
    | some m =>
      have hvisit : p.Balanced g .none [⟨root, m, g⟩] (p.visitMatch g root m) :=
        visitMatch_balanced hg (contains_of_matchAt? hm)
      have hhead := List.forall_mem_singleton.mp hvisit.unpinned
      rcases he : p.visitMatch g root m with ⟨h, e | seen⟩
      · rw [he] at hvisit
        simp only [visitAll, visits, hm, he]
        refine ⟨hvisit.wellFormed, hvisit.pins, hvisit.found, hvisit.unpinned, ?_, ?_, ?_⟩
        · exact Iff.trans (by simp) hvisit.overflow
        · exact fun f hf => hvisit.error f (congrArg Except.error (Except.error.inj hf))
        · exact fun o' ho => (by cases ho)
      · rw [he] at hvisit
        simp only [visitAll, visits, hm, he]
        have hrest := ih (o := o.merge seen) hvisit.wellFormed
        have hfirst : ¬ Visit.Overflows p ⟨root, m, g⟩ := fun hs =>
          (by cases hvisit.overflow.mpr ⟨_, List.mem_singleton_self _, hs⟩)
        refine ⟨hrest.wellFormed, hrest.pins.trans hvisit.pins,
          List.forall_mem_cons.mpr ⟨rfl, fun v hv => (hrest.found v hv).trans hvisit.pins⟩,
          List.forall_mem_cons.mpr ⟨hhead, hrest.unpinned⟩, ?_, fun e he hne => ?_, fun o' ho => ?_⟩
        · rw [hrest.overflow, List.exists_mem_cons_iff, or_iff_right hfirst]
        · obtain ⟨v, hv, hcause⟩ := hrest.error e he hne
          exact ⟨v, List.mem_cons_of_mem _ hv, hcause⟩
        · have hfirst := hvisit.occupied seen rfl
          have hlast := hrest.occupied o' ho
          simp only [Outcome.none, Outcome.merge, List.map_cons, List.map_nil, List.sum_cons,
            List.sum_nil] at hfirst hlast ⊢
          omega

theorem trace_balanced (p : PatternPass) (hg : g.WellFormed) :
    p.Balanced g .none (p.trace g) (p.run g) := by
  obtain ⟨order, horder, -⟩ := hg.topologicalOrder_eq
  have hrun : p.run g = p.visitAll order g .none := by simp only [run, horder]
  have htrace : p.trace g = p.visits order g := by simp only [trace, horder]
  rw [hrun, htrace]
  exact visitAll_balanced hg

/-- A reshape that changes nothing, held by a handle from outside. -/
def heldEcho : Graph := Pipeline.echo.modifyPins 1 (· + 1)

theorem wellFormed_heldEcho : heldEcho.WellFormed :=
  Pipeline.wellFormed_echo.modifyPins _ (show Pipeline.echo.contains ⟨1, 0⟩ = true from rfl)

end PatternPass

end TensorGraph
