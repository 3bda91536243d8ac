import Mathlib
import TensorGraph.Proofs.Rewrite.Rewiring

/-! # Cycles

The check of a plan looks only at what the targets depend on before anything changes. For one
replacement that is exact: what is found closes a cycle in the rewired graph, through the staged
nodes that the target is made of and back over the first edge that is redirected.
-/

namespace TensorGraph

open Relation (ReflTransGen TransGen)

variable {β : Type} {a b : Arena β} {p : Plan β} {v w : Value} {x : Operand} {y z : NodeId}
variable {e : GraphError}

/-! ### What the check reports -/

namespace Plan

def Repoints (p : Plan β) (a : Arena β) (y : NodeId) : Prop :=
  ∃ r ∈ p.replacements, ∃ u ∈ a.uses r.1, u.node = y

theorem not_fault_cycleIntroduced : ¬ Fault (.cycleIntroduced w y) := by
  intro h
  generalize he : GraphError.cycleIntroduced w y = e at h
  cases h with
  | missing x => cases x <;> cases he
  | _ => cases he

theorem check_eq_cycleIntroduced_iff : p.check a = .error (.cycleIntroduced w y) ↔
    p.Checked a ∧ p.checkCycles a = .error (.cycleIntroduced w y) := by
  constructor
  · exact fun h => (check_eq_error_cases h).resolve_left not_fault_cycleIntroduced
  · rintro ⟨hp, h⟩
    rw [hp.check_eq, h]

theorem Checked.exists_check_eq_error_iff (hp : p.Checked a) :
    (∃ w y, p.check a = .error (.cycleIntroduced w y)) ↔
      ∃ y ∈ p.dependencies a, p.Repoints a y := by
  rw [hp.check_eq]
  constructor
  · rintro ⟨w, y, h⟩
    obtain ⟨r, hr, u, hu, hd, -⟩ := exists_of_checkCycles_eq_error h
    exact ⟨u.node, hd, r, hr, u, hu, rfl⟩
  · rintro ⟨-, hd, r, hr, u, hu, rfl⟩
    cases h : p.checkCycles a with
    | ok _ => exact absurd hd (checkCycles_eq_ok_iff.mp h r hr u hu)
    | error e =>
      obtain ⟨s, -, t, -, -, rfl⟩ := exists_of_checkCycles_eq_error h
      exact ⟨s.1, t.node, rfl⟩

end Plan

namespace Arena

variable {id : NodeId} {ids : List NodeId} {inherited : Annotations} {i : Nat}

theorem eq_staged_of_stagedIndex? (h : Plan.stagedIndex? x = some i) :
    ∃ port, x = .staged i port := by
  cases x with
  | graph v => cases h
  | staged j port => exact ⟨port, by rw [Option.some.inj h]⟩

theorem eq_graph_of_graphNode? (h : Plan.graphNode? x = some y) :
    ∃ w, x = .graph w ∧ w.node = y := by
  cases x with
  | graph w => exact ⟨w, rfl, Option.some.inj h⟩
  | staged j port => cases h

theorem redirect_of_not_replaced (hw : ¬ ∃ r ∈ p.replacements, r.1 = w) :
    p.redirect ids w = w := by
  rcases redirectAll_cases (p.targets ids) w with ⟨he, -⟩ | ⟨⟨t, ht, he⟩, -⟩
  · exact he
  · obtain ⟨r, hr, rfl⟩ := List.mem_map.mp ht
    exact absurd ⟨r, hr, he⟩ hw

/-! ### Edges before the nodes are named -/

theorem Renamed.reads (h : a.Renamed b ids) : b.Reads = a.Reads := by
  have hproducers : b.producers = a.producers := by
    funext x
    have hx := congrArg (Option.map fun n => n.inputs.map Value.node) (h.unnamed x)
    rw [Option.map_map, Option.map_map] at hx
    rw [producers_eq_bare, producers_eq_bare]
    exact congrArg (·.getD []) hx
  unfold Reads
  rw [hproducers]

section Wired

variable (h : a.Inserted b inherited p.staged ids) (hp : p.Checked a)
include h hp

theorem Inserted.reads_wired_old {u : Use} (hu : a.producer? u = some w) :
    (b.wired p ids).Reads u.node (p.redirect ids w).node := by
  refine mem_producers_iff.mpr ⟨u, _, ?_, rfl, rfl⟩
  have hfresh : u.node ∉ ids := h.contains_of_old (contains_of_reads_left (reads_of_producer? hu))
  rw [producer?_eq_bare] at hu ⊢
  rw [h.bare?_wired_old hp hfresh]
  obtain ⟨n, hn, hw⟩ := Option.bind_eq_some_iff.mp hu
  simp [hn, hw]

theorem Inserted.reads_wired_new {s : StagedNode β} (hs : p.staged[i]? = some s)
    (hid : ids[i]? = some id) (hx : x ∈ s.inputs) :
    (b.wired p ids).Reads id (x.resolve ids).node := by
  rw [Reads, producers_eq_bare, h.bare?_wired_new hp hs hid]
  exact List.mem_map_of_mem (List.mem_map_of_mem hx)

/-! ### What the targets reach -/

theorem Inserted.reaches_through (hi : i ∈ p.through) : ∃ r ∈ p.replacements, ∃ id,
    ids[i]? = some id ∧ ReflTransGen (b.wired p ids).Reads (r.2.resolve ids).node id := by
  have hexists {i : Nat} (hi : i ∈ List.range p.staged.length) : ∃ id, ids[i]? = some id :=
    h.exists_id (List.getElem?_eq_getElem (List.mem_range.mp hi))
  refine closure_induction (p := fun i => ∃ r ∈ p.replacements, ∃ id, ids[i]? = some id ∧
    ReflTransGen (b.wired p ids).Reads (r.2.resolve ids).node id) (fun i hi hd => ?_)
    (fun i j hi hj hd => ?_) hi
  · obtain ⟨x, hx, hxi⟩ := List.mem_filterMap.mp hi
    obtain ⟨r, hr, rfl⟩ := List.mem_map.mp hx
    obtain ⟨id, hid⟩ := hexists hd
    refine ⟨r, hr, id, hid, ?_⟩
    obtain ⟨port, hport⟩ := eq_staged_of_stagedIndex? hxi
    rw [hport, resolve_staged hid]
    exact .refl
  · obtain ⟨r, hr, id, hid, hreach⟩ := hi
    obtain ⟨x, hx, hxj⟩ := List.mem_filterMap.mp hj
    obtain ⟨id', hid'⟩ := hexists hd
    refine ⟨r, hr, id', hid', hreach.tail ?_⟩
    obtain ⟨port, rfl⟩ := eq_staged_of_stagedIndex? hxj
    obtain ⟨s, hs, hx⟩ := mem_stagedInputs_iff.mp hx
    have hread := h.reads_wired_new hp hs hid hx
    rwa [resolve_staged hid'] at hread

theorem Inserted.reaches_root (hz : z ∈ p.graphRoots (p.replacements.map (·.2))) :
    ∃ r ∈ p.replacements, ReflTransGen (b.wired p ids).Reads (r.2.resolve ids).node z := by
  obtain ⟨x, hx, hz⟩ := List.mem_filterMap.mp hz
  obtain ⟨w, rfl, rfl⟩ := eq_graph_of_graphNode? hz
  rcases List.mem_append.mp hx with hx | hx
  · obtain ⟨r, hr, he⟩ := List.mem_map.mp hx
    refine ⟨r, hr, ?_⟩
    rw [he, Operand.resolve]
  · obtain ⟨i, hi, hx⟩ := List.mem_flatMap.mp hx
    obtain ⟨r, hr, id, hid, hreach⟩ := h.reaches_through hp hi
    obtain ⟨s, hs, hx⟩ := mem_stagedInputs_iff.mp hx
    exact ⟨r, hr, hreach.tail (h.reads_wired_new hp hs hid hx)⟩

theorem Inserted.reaches_repointed (hl : a.Linked) (hzy : ReflTransGen a.Reads z y)
    (hy : p.Repoints a y) :
    ∃ y', p.Repoints a y' ∧ ReflTransGen (b.wired p ids).Reads z y' := by
  induction hzy using ReflTransGen.head_induction_on with
  | refl => exact ⟨y, hy, .refl⟩
  | @head z m hzm _ ih =>
    obtain ⟨u, w, hu, rfl, rfl⟩ := mem_producers_iff.mp hzm
    by_cases hw : ∃ r ∈ p.replacements, r.1 = w
    · obtain ⟨r, hr, rfl⟩ := hw
      exact ⟨u.node, ⟨r, hr, u, hl.mem_uses_iff.mpr hu, rfl⟩, .refl⟩
    · obtain ⟨y', hy', hreach⟩ := ih
      have hread := h.reads_wired_old hp hu
      rw [redirect_of_not_replaced hw] at hread
      exact ⟨y', hy', .head hread hreach⟩

end Wired

/-! ### The check and the rewired graph -/

theorem redirect_single (hr : p.replacements = [(v, x)]) : p.redirect ids v = x.resolve ids := by
  simp [Plan.redirect, Plan.targets, hr, redirectAll, instead]

theorem Inserted.cycle_wired (h : a.Inserted b inherited p.staged ids) (hp : p.Checked a)
    (hl : a.Linked) (hr : p.replacements = [(v, x)]) (hd : y ∈ p.dependencies a)
    (hy : p.Repoints a y) :
    TransGen (b.wired p ids).Reads (x.resolve ids).node (x.resolve ids).node := by
  obtain ⟨root, hroot, hpath⟩ := exists_root_of_mem_ancestors hd
  obtain ⟨y', ⟨r, hmem, u, hu, rfl⟩, hreach⟩ := h.reaches_repointed hp hl hpath hy
  obtain ⟨r', hmem', hroot⟩ := h.reaches_root hp hroot
  rw [hr] at hmem hmem'
  obtain rfl := List.mem_singleton.mp hmem
  obtain rfl := List.mem_singleton.mp hmem'
  have hread := h.reads_wired_old hp (hl.mem_uses_iff.mp hu)
  rw [redirect_single hr] at hread
  exact .trans_right hroot (.trans_right hreach (.single hread))

/-- One replacement is refused for a cycle exactly if it would close one, and whatever is committed
is acyclic. -/
theorem WellFormed.commit_cycleIntroduced_iff (ha : a.WellFormed) :
    (∀ (p : Plan β) (v : Value) (x : Operand), p.replacements = [(v, x)] → p.Checked a →
      ((∃ w y, a.commit p = .error (.cycleIntroduced w y)) ↔ ¬ (a.rewire p).1.Acyclic)) ∧
    ∀ (p : Plan β) (b : Arena β) (done : Commit), a.commit p = .ok (b, done) → b.Acyclic := by
  refine ⟨fun p v x hr hp => ?_, fun p b done e => (ha.commit e).acyclic⟩
  have h := inserted_insertStaged ha (a.mergedAnnotations p.sources) p.staged
  simp only [commit_eq_error_iff, hp.exists_check_eq_error_iff]
  constructor
  · rintro ⟨y, hd, hy⟩ hacyclic
    have hcycle := h.cycle_wired hp ha.linked hr hd hy
    rw [← (h.named hp).reads] at hcycle
    exact hacyclic _ hcycle
  · intro hcyclic
    by_contra hnone
    have hclear : ∀ r ∈ p.replacements, ∀ u ∈ a.uses r.1, u.node ∉ p.dependencies a :=
      fun r hr u hu hd => hnone ⟨u.node, hd, r, hr, u, hu, rfl⟩
    exact hcyclic (rewired_rewire ha (hp.accepted hclear)).wellFormed.acyclic

end Arena

def twice : Graph where
  slots := #[
    ⟨0, 0, some ⟨Primitive.parameter ⟨.f32, .ofSizes [2]⟩, [],
      [⟨⟨.f32, .ofSizes [2]⟩, [⟨⟨1, 0⟩, 0⟩, ⟨⟨1, 0⟩, 1⟩]⟩], "", .empty⟩⟩,
    ⟨0, 0, some ⟨Primitive.add, [⟨⟨0, 0⟩, 0⟩, ⟨⟨0, 0⟩, 0⟩],
      [⟨⟨.f32, .ofSizes [2]⟩, []⟩], "", .empty⟩⟩]
  free := []
  parameters := [⟨0, 0⟩]
  results := []
  live := 2
  version := 0
  table := .standard

/-- The parameter is to be replaced by what a new node makes of the sum. -/
def feedback : Plan Body where
  staged := [⟨Primitive.add, [.graph ⟨⟨1, 0⟩, 0⟩, .graph ⟨⟨0, 0⟩, 0⟩], [⟨.f32, .ofSizes [2]⟩], "",
    .empty⟩]
  replacements := [(⟨⟨0, 0⟩, 0⟩, .staged 0 0)]
  sources := []

theorem commit_feedback : twice.WellFormed ∧ feedback.Checked twice ∧
    (∃ w y, twice.commit feedback = .error (.cycleIntroduced w y)) ∧
      ¬ (twice.rewire feedback).1.Acyclic := by
  have hg : twice.WellFormed := Arena.wellFormed_of_validate (by cbv) (by decide) (by decide)
    (by decide) (fun _ h => absurd h List.not_mem_nil) (by cbv)
  have he : feedback.check twice = .error (.cycleIntroduced ⟨⟨0, 0⟩, 0⟩ ⟨1, 0⟩) := by cbv
  have hp := (Plan.check_eq_cycleIntroduced_iff.mp he).1
  have hrefused : ∃ w y, twice.commit feedback = .error (.cycleIntroduced w y) :=
    ⟨_, _, Arena.commit_eq_error_iff.mpr he⟩
  exact ⟨hg, hp, hrefused,
    ((Arena.WellFormed.commit_cycleIntroduced_iff hg).1 feedback _ _ rfl hp).mp hrefused⟩

end TensorGraph
