import TensorGraph.Proofs.Pass.Cascade
import TensorGraph.Proofs.Pass.Tightness

/-! # Survivors

Which nodes a list of releases takes does not depend on the order in which it works: a node falls
if nothing holds it by itself, everything that reads it falls, and the releases come by it. Garbage
collection starts at all nodes that no result depends on, and so what is left are the parameters,
the results, the pinned nodes and what they depend on.
-/

namespace TensorGraph

open Relation

theorem Kind.isAnchor_iff {kind : Kind} :
    kind.isAnchor = true ↔ kind = .parameter ∨ kind = .result := by
  cases kind <;> simp [Kind.isAnchor]

namespace Arena

variable {β : Type} {a b : Arena β} {x y id : NodeId} {ids : List NodeId} {n : Node β}

/-- Releases that start at the given nodes take a node. It is no anchor and not pinned, all that
reads it is taken, and it is one of the given nodes or read by one that is taken. -/
inductive Falls (a : Arena β) (ids : List NodeId) : NodeId → Prop where
  | intro {x : NodeId} {kind : Kind} : a.kind? x = some kind → kind.isAnchor = false →
      a.pins x = 0 → (∀ y, a.Reads y x → a.Falls ids y) → x ∈ ids ∨ (∃ y, a.Reads y x) →
      a.Falls ids x

/-- Only kinds, pins, edges and where the releases start decide what falls. -/
theorem Falls.congr {starts : List NodeId} (h : a.Falls ids x) (hkind : b.kind? = a.kind?)
    (hpins : b.pins = a.pins) (hreads : ∀ y z, b.Reads y z ↔ a.Reads y z) (hsub : ids ⊆ starts) :
    b.Falls starts x := by
  induction h with
  | intro hk hanchor hp _ hstart ih =>
    refine .intro (hkind ▸ hk) hanchor (hpins ▸ hp) (fun y hr => ih y ((hreads y _).mp hr)) ?_
    rcases hstart with hx | ⟨y, hr⟩
    · exact .inl (hsub hx)
    · exact .inr ⟨y, (hreads y _).mpr hr⟩

theorem reads_iff_of_bare? (h : b.bare? y = a.bare? y) : b.Reads y x ↔ a.Reads y x := by
  rw [Reads, producers_eq_bare, h, Reads, producers_eq_bare]

section Released

variable (ha : a.WellFormed)
include ha

theorem remains_releaseAll (ids : List NodeId) : a.Remains (a.releaseAll ids).1 :=
  (releases_releaseAll a ids).remains ha

theorem not_contains_reader (hx : ¬ (a.releaseAll ids).1.contains x = true) (hr : a.Reads y x) :
    ¬ (a.releaseAll ids).1.contains y = true := by
  intro hy
  have hwf := (releases_releaseAll a ids).wellFormed ha
  have hread : (a.releaseAll ids).1.Reads y x :=
    (reads_iff_of_bare? ((remains_releaseAll ha ids).bare y hy)).mpr hr
  exact hx (hwf.linked.contains_of_reads hread)

theorem Falls.of_gone (hx : a.contains x = true) (hgone : ¬ (a.releaseAll ids).1.contains x = true) :
    a.Falls ids x := by
  by_contra hfalls
  -- otherwise it is read by a node that is gone and did not fall, and that one by another
  refine ha.not_of_read (S := fun x => a.contains x = true ∧
    ¬ (a.releaseAll ids).1.contains x = true ∧ ¬ a.Falls ids x) ?_ x ⟨hx, hgone, hfalls⟩
  rintro x ⟨hx, hgone, hfalls⟩
  obtain ⟨n, hn⟩ := contains_iff.mp hx
  have hkept := mt ((remains_releaseAll ha ids).kept x n hn) hgone
  push Not at hkept
  by_contra hnone
  push Not at hnone
  have hanchor : n.kind.isAnchor = false := Bool.eq_false_iff.mpr hkept.2
  refine hfalls (.intro (kind?_eq_some_iff.mpr ⟨n, hn, rfl⟩) hanchor hkept.1 ?_ ?_)
  · intro y hr
    by_contra hy
    exact hnone y ⟨contains_of_reads_left hr, not_contains_reader ha hgone hr, hy⟩ hr
  · exact ((cascade_releaseAll ha ids).cause x hx hgone).imp_right fun ⟨y, hr, _⟩ => ⟨y, hr⟩

theorem dead?_of_releaseAll (hdead : (a.releaseAll ids).1.Dead x) :
    x ∉ ids ∧ ∃ n, a.dead? x = some n := by
  have hwithin : a.DeadWithin
      (ids ++ a.nodeIds.filter fun x => (a.dead? x).isSome ∧ x ∉ ids) := by
    intro y hy
    by_cases hmem : y ∈ ids
    · exact List.mem_append_left _ hmem
    · obtain ⟨n, hn⟩ := dead_iff.mp hy
      have hlive := mem_nodeIds_iff.mpr ⟨n, (dead?_eq_some_iff.mp hn).1⟩
      exact List.mem_append_right _ (List.mem_filter.mpr ⟨hlive, by simp [hn, hmem]⟩)
  have hmem := (List.mem_filter.mp (DeadWithin.releaseAll hwithin ha x hdead)).2
  obtain ⟨hd, hnot⟩ := of_decide_eq_true hmem
  exact ⟨hnot, Option.isSome_iff_exists.mp hd⟩

theorem Falls.gone (h : a.Falls ids x) : ¬ (a.releaseAll ids).1.contains x = true := by
  induction h with
  | @intro x kind hk hanchor hp _ hstart ih =>
    intro hx
    have hremains := remains_releaseAll ha ids
    have hwf := (releases_releaseAll a ids).wellFormed ha
    -- all its readers are gone, so it would be left over as a dead node
    have hdead : (a.releaseAll ids).1.Dead x := by
      refine ⟨⟨kind, ?_, hanchor⟩, hremains.pins ▸ hp, fun v hv => ?_⟩
      · rw [kind?_eq_bare, hremains.bare x hx, ← kind?_eq_bare, hk]
      · refine List.eq_nil_iff_forall_not_mem.mpr fun u hu => ?_
        have hread := reads_of_producer? (hwf.linked.mem_uses_iff.mp hu)
        have hy := contains_of_reads_left hread
        rw [hv] at hread
        exact ih u.node ((reads_iff_of_bare? (hremains.bare _ hy)).mp hread) hy
    obtain ⟨hnot, n, hn⟩ := dead?_of_releaseAll ha hdead
    obtain ⟨y, hread⟩ := hstart.resolve_left hnot
    exact not_reads_of_dead? ha hn hread

/-- What is left after releases is what does not fall. -/
theorem contains_releaseAll_iff :
    (a.releaseAll ids).1.contains x = true ↔ a.contains x = true ∧ ¬ a.Falls ids x := by
  constructor
  · intro hx
    exact ⟨((releases_releaseAll a ids).part ha).contains hx, fun h => h.gone ha hx⟩
  · rintro ⟨hx, hfalls⟩
    by_contra hgone
    exact hfalls (.of_gone ha hx hgone)

end Released

/-! ### Garbage collection -/

theorem Tight.release (ht : a.Tight) (id : NodeId) : a.release id = (a, 0) := by
  have hd : a.dead? id = none := by
    by_contra hsome
    exact ht id (dead_iff.mpr (Option.ne_none_iff_exists'.mp hsome))
  have hsweep : a.sweep [id] = (a, 0) := by
    rw [sweep]
    split
    · rw [sweep]
    · rename_i n hn
      rw [hd] at hn
      cases hn
  rw [Arena.release, hsweep]
  rfl

/-- If nothing is dead, no list of releases does anything. -/
theorem Tight.releaseAll (ht : a.Tight) (ids : List NodeId) : a.releaseAll ids = (a, 0) := by
  induction ids with
  | nil => rfl
  | cons id ids ih => simp only [Arena.releaseAll, ht.release, ih]

/-- What garbage collection may not take for its own sake: parameters, results and what is
pinned. -/
def Holds (a : Arena β) (x : NodeId) : Prop :=
  a.kind? x = some .parameter ∨ a.kind? x = some .result ∨ a.contains x = true ∧ a.pins x ≠ 0

theorem not_holds_iff {kind : Kind} (hk : a.kind? x = some kind) :
    ¬ a.Holds x ↔ kind.isAnchor = false ∧ a.pins x = 0 := by
  rw [Holds, hk, ← Bool.not_eq_true, Kind.isAnchor_iff]
  simp [contains_of_kind? hk]
  tauto

theorem Holds.contains (h : a.Holds x) : a.contains x = true := by
  rcases h with hk | hk | ⟨hx, -⟩
  · exact contains_of_kind? hk
  · exact contains_of_kind? hk
  · exact hx

theorem Linked.contains_of_reaches (hl : a.Linked) (hx : a.contains x = true)
    (h : ReflTransGen a.Reads x y) : a.contains y = true := by
  induction h with
  | refl => exact hx
  | tail _ hr _ => exact hl.contains_of_reads hr

theorem mem_candidates (hr : ∀ id ∈ a.results, a.kind? id = some .result)
    (hx : a.contains x = true) (hheld : ∀ y, a.Holds y → ¬ ReflTransGen a.Reads y x) :
    x ∈ a.candidates := by
  refine List.mem_filter.mpr ⟨mem_nodeIds_iff_contains.mpr hx, decide_eq_true fun hmem => ?_⟩
  obtain ⟨root, hroot, hpath⟩ := exists_root_of_mem_ancestors hmem
  exact hheld root (.inr (.inl (hr root hroot))) hpath

theorem Falls.not_reached (h : a.Falls ids x) (hy : a.Holds y) : ¬ ReflTransGen a.Reads y x := by
  induction h with
  | intro hk hanchor hp _ _ ih =>
    intro hpath
    rcases ReflTransGen.cases_tail hpath with rfl | ⟨z, hpath, hr⟩
    · exact (not_holds_iff hk).mpr ⟨hanchor, hp⟩ hy
    · exact ih z hr hpath

theorem falls_candidates_iff (ha : a.WellFormed) (hx : a.contains x = true) :
    a.Falls a.candidates x ↔ ∀ y, a.Holds y → ¬ ReflTransGen a.Reads y x := by
  refine ⟨fun h y hy => h.not_reached hy, fun hheld => ?_⟩
  by_contra hfalls
  refine ha.not_of_read (S := fun x => a.contains x = true ∧
    (∀ y, a.Holds y → ¬ ReflTransGen a.Reads y x) ∧ ¬ a.Falls a.candidates x) ?_ x
    ⟨hx, hheld, hfalls⟩
  rintro x ⟨hx, hheld, hfalls⟩
  obtain ⟨n, hn⟩ := contains_iff.mp hx
  have hk : a.kind? x = some n.kind := kind?_eq_some_iff.mpr ⟨n, hn, rfl⟩
  obtain ⟨hanchor, hp⟩ := (not_holds_iff hk).mp fun hself => hheld x hself .refl
  by_contra hnone
  push Not at hnone
  refine hfalls (.intro hk hanchor hp (fun y hr => ?_) (.inl (mem_candidates ha.results hx hheld)))
  by_contra hy
  exact hnone y ⟨contains_of_reads_left hr, fun z hz hpath => hheld z hz (hpath.tail hr), hy⟩ hr

theorem deadWithin_candidates (ha : a.WellFormed) : a.DeadWithin a.candidates := by
  intro x hx
  obtain ⟨n, hn⟩ := dead_iff.mp hx
  obtain ⟨kind, hk, hanchor⟩ := hx.kind
  refine mem_candidates ha.results (contains_of_kind? hk) fun y hy hpath => ?_
  rcases ReflTransGen.cases_tail hpath with rfl | ⟨z, -, hr⟩
  · exact (not_holds_iff hk).mpr ⟨hanchor, hx.pins⟩ hy
  · exact not_reads_of_dead? ha hn hr

theorem live_add_of_releases {k : Nat} (h : a.Releases k b) (ha : a.WellFormed) :
    b.live + k = a.live := by
  rw [(h.wellFormed ha).live, ha.live, h.occupied]

theorem Tight.exhaust (ht : a.Tight) (ids : List NodeId) : a.exhaust ids = (a, 0) := by
  have hnone : (a.releaseAll ids).2 = 0 := by rw [ht.releaseAll]
  rw [Arena.exhaust, if_pos hnone, ht.releaseAll]

theorem exhaust_eq_releaseAll (ha : a.WellFormed) (h : a.DeadWithin ids) :
    a.exhaust ids = a.releaseAll ids := by
  have htight : (a.releaseAll ids).1.Tight := h.tight_releaseAll ha
  rw [exhaust]
  split
  · rfl
  · rw [htight.exhaust]
    rfl

theorem collectGarbage_eq (ha : a.WellFormed) : a.collectGarbage = a.releaseAll a.candidates :=
  exhaust_eq_releaseAll ha (deadWithin_candidates ha)

/-- Garbage collection leaves the parameters, the results and the pinned nodes with all that they
depend on, as they were, and nothing else. It counts the nodes that go. There is nothing left to
release then, in any order, and so a second collection does nothing. -/
theorem collectGarbage_exact (ha : a.WellFormed) :
    (∀ x, a.collectGarbage.1.contains x = true ↔ ∃ y, a.Holds y ∧ ReflTransGen a.Reads y x) ∧
    (∀ x, a.collectGarbage.1.contains x = true →
      a.collectGarbage.1.bare? x = a.bare? x ∧ ∀ v, v.node = x → a.collectGarbage.1.uses v =
        (a.uses v).filter fun u => a.collectGarbage.1.contains u.node) ∧
    a.collectGarbage.1.pins = a.pins ∧
    a.collectGarbage.1.parameters = a.parameters ∧ a.collectGarbage.1.results = a.results ∧
    a.collectGarbage.1.live + a.collectGarbage.2 = a.live ∧
    (∀ ids, a.collectGarbage.1.releaseAll ids = (a.collectGarbage.1, 0)) ∧
    a.collectGarbage.1.collectGarbage = (a.collectGarbage.1, 0) := by
  have hremains := (releases_collectGarbage a).remains ha
  have htight : a.collectGarbage.1.Tight := by
    rw [collectGarbage_eq ha]
    exact (deadWithin_candidates ha).tight_releaseAll ha
  refine ⟨fun x => ?_, fun x hx => ⟨hremains.bare x hx, ?_⟩, hremains.pins, hremains.parameters,
    hremains.results, live_add_of_releases (releases_collectGarbage a) ha,
    htight.releaseAll, htight.exhaust _⟩
  · rw [collectGarbage_eq ha, contains_releaseAll_iff ha]
    constructor
    · rintro ⟨hx, hfalls⟩
      rw [falls_candidates_iff ha hx] at hfalls
      push Not at hfalls
      exact hfalls
    · rintro ⟨y, hy, hpath⟩
      exact ⟨ha.linked.contains_of_reaches hy.contains hpath, fun h => h.not_reached hy hpath⟩
  · rintro v rfl
    exact hremains.uses v hx

end Arena

/-- The reshape that nothing reads goes, and the product that it read stays for the sum. -/
theorem collectGarbage_dangling : Pipeline.dangling.WellFormed ∧
    Pipeline.dangling.collectGarbage.2 = 1 ∧
    Pipeline.dangling.collectGarbage.1.contains ⟨5, 0⟩ = false ∧
    Pipeline.dangling.collectGarbage.1.contains ⟨3, 0⟩ = true ∧
    Pipeline.dangling.collectGarbage.1.collectGarbage =
      (Pipeline.dangling.collectGarbage.1, 0) := by
  have hexact := Arena.collectGarbage_exact Pipeline.wellFormed_dangling
  exact ⟨Pipeline.wellFormed_dangling, by cbv, by cbv, by cbv, hexact.2.2.2.2.2.2.2⟩

end TensorGraph
