import TensorGraph.Proofs.Rewrite.Effect

/-! # Commits

The graph of an accepted plan before anything is released: what every node is, and why there is
no cycle. What replacements depend on is ranked lowest, then the staged nodes that they reach, then
the rest of the graph, and last the other staged nodes.
-/

namespace TensorGraph

variable {β : Type}

namespace Plan

def targets (p : Plan β) (inserted : List NodeId) : List (Value × Value) :=
  p.replacements.map fun r => (r.1, r.2.resolve inserted)

def wirings (p : Plan β) (inserted : List NodeId) : List (NodeId × List Value) :=
  (inserted.zip p.staged).map fun w => (w.1, w.2.inputs.map (Operand.resolve inserted))

/-- What is read in the place of a value after all replacements, one after the other. -/
def redirect (p : Plan β) (inserted : List NodeId) : Value → Value :=
  Arena.redirectAll (p.targets inserted)

/-- The staged nodes that replacements reach. -/
def through (p : Plan β) : List Nat :=
  closure (fun i => (p.stagedInputs i).filterMap stagedIndex?) (List.range p.staged.length)
    ((p.replacements.map (·.2)).filterMap stagedIndex?)

end Plan

namespace Arena

variable {a b c : Arena β} {x y id : NodeId} {n : Node β} {v w : Value} {u : Use}
variable {p : Plan β} {ids inserted : List NodeId}

/-- The arena in which the staged nodes are wired and all others redirected. -/
def wired (b : Arena β) (p : Plan β) (ids : List NodeId) : Arena β :=
  (b.repointAll (p.targets ids)).wireAll (p.wirings ids)

/-- The graph of a plan before anything is released, and the handles of the staged nodes. -/
def rewire (a : Arena β) (p : Plan β) : Arena β × List NodeId :=
  let s := a.insertStaged (a.mergedAnnotations p.sources) p.staged
  (nameAll a (s.1.wired p s.2) s.2 p.replacements, s.2)

def released (a : Arena β) (p : Plan β) : Arena β × Nat :=
  (a.rewire p).1.releaseAll (p.replacements.map (·.1.node) ++ (a.rewire p).2)

theorem apply_eq (a : Arena β) (p : Plan β) : a.apply p =
    ((a.released p).1.bump, ⟨(a.rewire p).2, p.replacements.length, (a.released p).2⟩) := by
  simp only [apply, released, rewire, wired, repointAll, wireAll, Plan.targets, Plan.wirings,
    List.foldl_map, nameAll]

/-- The staged nodes are in place, and all others read what they are redirected to. -/
structure Rewired (a b : Arena β) (p : Plan β) (ids : List NodeId) : Prop where
  wellFormed : b.WellFormed
  length : ids.length = p.staged.length
  nodup : ids.Nodup
  fresh : ∀ id ∈ ids, ¬ a.contains id = true
  unpinned : ∀ id ∈ ids, a.pins id = 0
  old : ∀ x, x ∉ ids → b.bare? x =
    (a.bare? x).map fun n => { n with inputs := n.inputs.map (p.redirect ids) }
  new : ∀ (i : Nat) (n : StagedNode β) (id : NodeId), p.staged[i]? = some n →
    ids[i]? = some id → ∃ name, b.bare? id = some {
      (n.fresh (a.mergedAnnotations p.sources)) with
      inputs := n.inputs.map (Operand.resolve ids), name }
  pins : b.pins = a.pins
  parameters : b.parameters = a.parameters
  results : b.results = a.results
  table : b.table = a.table

theorem Rewired.kind?_old (hr : a.Rewired b p ids) (hx : x ∉ ids) : b.kind? x = a.kind? x := by
  rw [kind?_eq_bare, hr.old x hx, Option.map_map, kind?_eq_bare]
  rfl

theorem Rewired.exists_staged (hr : a.Rewired b p ids) (hx : x ∈ ids) :
    ∃ (i : Nat) (n : StagedNode β) (name : String), p.staged[i]? = some n ∧ ids[i]? = some x ∧
      b.bare? x = some { (n.fresh (a.mergedAnnotations p.sources)) with
        inputs := n.inputs.map (Operand.resolve ids), name } := by
  obtain ⟨i, hid⟩ := List.mem_iff_getElem?.mp hx
  have hlt : i < p.staged.length := hr.length ▸ (List.getElem?_eq_some_iff.mp hid).1
  have hn := List.getElem?_eq_getElem hlt
  obtain ⟨name, hnew⟩ := hr.new i _ x hn hid
  exact ⟨i, _, name, hn, hid, hnew⟩

/-- A node of a rewired graph was there before or was staged. -/
theorem Rewired.cases (hr : a.Rewired b p ids) (hn : b.bare? x = some n) :
    (x ∉ ids ∧ ∃ m, a.bare? x = some m ∧
      n = { m with inputs := m.inputs.map (p.redirect ids) }) ∨
    ∃ (i : Nat) (s : StagedNode β) (name : String), p.staged[i]? = some s ∧ ids[i]? = some x ∧
      n = { (s.fresh (a.mergedAnnotations p.sources)) with
        inputs := s.inputs.map (Operand.resolve ids), name } := by
  by_cases hx : x ∈ ids
  · obtain ⟨i, s, name, hs, hid, hnew⟩ := hr.exists_staged hx
    exact .inr ⟨i, s, name, hs, hid, Option.some.inj (hn.symm.trans hnew)⟩
  · rw [hr.old x hx] at hn
    obtain ⟨m, hm, he⟩ := Option.map_eq_some_iff.mp hn
    exact .inl ⟨hx, m, hm, he.symm⟩

theorem Rewired.contains_iff (h : a.Rewired b p ids) :
    b.contains x = true ↔ x ∈ ids ∨ a.contains x = true := by
  by_cases hx : x ∈ ids
  · obtain ⟨i, n, name, -, -, hnew⟩ := h.exists_staged hx
    exact ⟨fun _ => .inl hx, fun _ => contains_of_bare? hnew⟩
  · rw [contains_eq_bare, h.old x hx, Option.isSome_map, ← contains_eq_bare]
    exact ⟨.inr, fun hc => hc.resolve_left hx⟩

/-! ### Before the nodes are named -/

section Wired

variable {inherited : Annotations}

theorem Inserted.repointable (h : a.Inserted b inherited p.staged ids) (hp : p.Checked a) :
    b.Repointable (p.targets ids) := by
  intro r hr
  obtain ⟨s, hs, rfl⟩ := List.mem_map.mp hr
  obtain ⟨hne, old, new, hold, hnew, -⟩ := hp.replacements s hs
  have hv : a.contains s.1.node = true := contains_of_spec? hold
  exact ⟨hasOutput_of_spec? ((h.spec?_old hv).trans hold),
    hasOutput_of_spec? (h.spec?_resolve hnew), h.resolve_ne hnew hne hv⟩

theorem Inserted.hasOutput_resolve (h : a.Inserted b inherited p.staged ids)
    (hp : p.Checked a) {i : Nat} {n : StagedNode β} (hn : p.staged[i]? = some n) {x : Operand}
    (hx : x ∈ n.inputs) : b.hasOutput (x.resolve ids) = true := by
  obtain ⟨s, hs⟩ := Option.isSome_iff_exists.mp (hp.operands i n hn x hx).isSome_spec?
  exact hasOutput_of_spec? (h.spec?_resolve hs)

theorem mem_wirings_iff {wiring : NodeId × List Value} : wiring ∈ p.wirings ids ↔
    ∃ (i : Nat) (n : StagedNode β), p.staged[i]? = some n ∧ ids[i]? = some wiring.1 ∧
      n.inputs.map (Operand.resolve ids) = wiring.2 := by
  obtain ⟨id, inputs⟩ := wiring
  rw [Plan.wirings, List.mem_map]
  constructor
  · rintro ⟨⟨x, n⟩, hx, he⟩
    obtain ⟨rfl, rfl⟩ := Prod.mk.inj he
    obtain ⟨i, hi⟩ := List.mem_iff_getElem?.mp hx
    obtain ⟨hid, hn⟩ := List.getElem?_zip_eq_some.mp hi
    exact ⟨i, n, hn, hid, rfl⟩
  · rintro ⟨i, n, hn, hid, rfl⟩
    exact ⟨(id, n), List.mem_iff_getElem?.mpr ⟨i, List.getElem?_zip_eq_some.mpr ⟨hid, hn⟩⟩, rfl⟩

theorem map_fst_wirings (h : ids.length = p.staged.length) :
    (p.wirings ids).map Prod.fst = ids := by
  rw [Plan.wirings, List.map_map]
  exact List.map_fst_zip h.le

theorem Inserted.bare?_repointAll (h : a.Inserted b inherited p.staged ids)
    (hp : p.Checked a) : (b.repointAll (p.targets ids)).bare? x =
      (b.bare? x).map fun n => { n with inputs := n.inputs.map (p.redirect ids) } :=
  Arena.bare?_repointAll h.wellFormed.linked (h.repointable hp)

theorem Inserted.wirable (h : a.Inserted b inherited p.staged ids) (hp : p.Checked a) :
    (b.repointAll (p.targets ids)).Wirable (p.wirings ids) := by
  have houtput : (b.repointAll (p.targets ids)).hasOutput = b.hasOutput := by
    funext v
    rw [hasOutput_eq_spec?, hasOutput_eq_spec?, spec?_eq_bare, spec?_eq_bare,
      h.bare?_repointAll hp]
    cases b.bare? v.node <;> rfl
  refine ⟨(map_fst_wirings h.length).symm ▸ h.nodup, fun w hw => ?_, fun w hw v hv => ?_⟩
  · obtain ⟨i, n, hn, hid, -⟩ := mem_wirings_iff.mp hw
    rw [h.bare?_repointAll hp, bare?, h.new i n w.1 hn hid]
    exact ⟨_, rfl, rfl⟩
  · obtain ⟨i, n, hn, hid, hinputs⟩ := mem_wirings_iff.mp hw
    obtain ⟨x, hx, rfl⟩ := List.mem_map.mp (hinputs ▸ hv)
    rw [houtput]
    exact h.hasOutput_resolve hp hn hx

theorem Inserted.bare?_wired_old (h : a.Inserted b inherited p.staged ids)
    (hp : p.Checked a) (hx : x ∉ ids) : (b.wired p ids).bare? x =
      (a.bare? x).map fun n => { n with inputs := n.inputs.map (p.redirect ids) } := by
  have hnot : x ∉ (p.wirings ids).map Prod.fst := (map_fst_wirings h.length).symm ▸ hx
  rw [wired, bare?_wireAll_of_not_mem (h.wirable hp) hnot, h.bare?_repointAll hp, bare?,
    h.old x hx, ← bare?]

theorem Inserted.bare?_wired_new (h : a.Inserted b inherited p.staged ids)
    (hp : p.Checked a) {i : Nat} {n : StagedNode β} (hn : p.staged[i]? = some n)
    (hid : ids[i]? = some id) : (b.wired p ids).bare? id =
      some { n.fresh inherited with inputs := n.inputs.map (Operand.resolve ids) } := by
  have hw : (id, n.inputs.map (Operand.resolve ids)) ∈ p.wirings ids :=
    mem_wirings_iff.mpr ⟨i, n, hn, hid, rfl⟩
  rw [wired, bare?_wireAll_of_mem (h.wirable hp) hw, h.bare?_repointAll hp, bare?,
    h.new i n id hn hid]
  simp [StagedNode.fresh, Node.fresh, Node.bare]

theorem Inserted.producer?_wired (h : a.Inserted b inherited p.staged ids)
    (hp : p.Checked a) (hu : (b.wired p ids).producer? u = some w) :
    (u.node ∉ ids ∧ ∃ v, a.producer? u = some v ∧ w = p.redirect ids v) ∨
    ∃ (i : Nat) (n : StagedNode β) (x : Operand), p.staged[i]? = some n ∧
      ids[i]? = some u.node ∧ x ∈ n.inputs ∧ w = x.resolve ids := by
  rw [producer?_eq_bare] at hu
  by_cases hx : u.node ∈ ids
  · obtain ⟨i, hid⟩ := List.mem_iff_getElem?.mp hx
    have hlt : i < p.staged.length := h.length ▸ (List.getElem?_eq_some_iff.mp hid).1
    rw [h.bare?_wired_new hp (List.getElem?_eq_getElem hlt) hid, Option.bind_some] at hu
    obtain ⟨x, hx, rfl⟩ := List.mem_map.mp (List.mem_of_getElem? hu)
    exact .inr ⟨i, _, x, List.getElem?_eq_getElem hlt, hid, hx, rfl⟩
  · rw [h.bare?_wired_old hp hx, Option.bind_map] at hu
    obtain ⟨n, hn, hport⟩ := Option.bind_eq_some_iff.mp hu
    rw [Function.comp_apply, List.getElem?_map] at hport
    obtain ⟨v, hv, rfl⟩ := Option.map_eq_some_iff.mp hport
    refine .inl ⟨hx, v, ?_, rfl⟩
    rw [producer?_eq_bare, hn, Option.bind_some, hv]

end Wired

/-! ### Why there is no cycle -/

section Rank

variable {inherited : Annotations} {i j port : Nat} {s : StagedNode β}

theorem mem_through (hp : p.Checked a) (hr : (v, .staged i port) ∈ p.replacements) :
    i ∈ p.through := by
  obtain ⟨-, old, new, -, hnew, -⟩ := hp.replacements _ hr
  obtain ⟨n, hn, -⟩ := Option.bind_eq_some_iff.mp hnew
  refine mem_closure_of_mem_work ?_ (List.mem_range.mpr (List.getElem?_eq_some_iff.mp hn).1)
  exact List.mem_filterMap.mpr ⟨_, List.mem_map_of_mem hr, rfl⟩

theorem mem_stagedInputs_iff {x : Operand} :
    x ∈ p.stagedInputs i ↔ ∃ s, p.staged[i]? = some s ∧ x ∈ s.inputs := by
  unfold Plan.stagedInputs
  cases p.staged[i]? <;> simp

theorem through_closed (hp : p.Checked a) (hi : i ∈ p.through) (hs : p.staged[i]? = some s)
    (hx : .staged j port ∈ s.inputs) : j ∈ p.through := by
  have hlt : j < i := (hp.operands i s hs _ hx).1
  have hi' := (List.getElem?_eq_some_iff.mp hs).1
  refine closure_closed hi ?_ (List.mem_range.mpr (hlt.trans hi'))
  exact List.mem_filterMap.mpr ⟨_, mem_stagedInputs_iff.mpr ⟨s, hs, hx⟩, rfl⟩

theorem mem_dependencies_of_target (hp : p.Checked a)
    (hr : (v, .graph w) ∈ p.replacements) : w.node ∈ p.dependencies a := by
  obtain ⟨-, old, new, -, hnew, -⟩ := hp.replacements _ hr
  refine mem_ancestors_of_mem ?_ (contains_of_spec? hnew)
  exact List.mem_filterMap.mpr ⟨.graph w, List.mem_append_left _ (List.mem_map_of_mem hr), rfl⟩

theorem mem_dependencies_of_through (hp : p.Checked a) (hi : i ∈ p.through)
    (hs : p.staged[i]? = some s) (hx : .graph w ∈ s.inputs) : w.node ∈ p.dependencies a := by
  refine mem_ancestors_of_mem ?_ (contains_of_hasOutput (hp.operands i s hs _ hx))
  refine List.mem_filterMap.mpr ⟨.graph w, List.mem_append_right _ ?_, rfl⟩
  exact List.mem_flatMap.mpr ⟨i, hi, mem_stagedInputs_iff.mpr ⟨s, hs, hx⟩⟩

theorem redirect_cases (hp : p.Accepted a) (ids : List NodeId) (v : Value) : p.redirect ids v = v ∨
    (∀ u ∈ a.uses v, u.node ∉ p.dependencies a) ∧
      ∃ r ∈ p.replacements, p.redirect ids v = r.2.resolve ids := by
  refine (redirectAll_cases (p.targets ids) v).imp And.left ?_
  rintro ⟨⟨r, hr, rfl⟩, t, ht, he⟩
  obtain ⟨r', hr', rfl⟩ := List.mem_map.mp hr
  obtain ⟨t', ht', rfl⟩ := List.mem_map.mp ht
  exact ⟨hp.acyclic r' hr', t', ht', he⟩

/-- The rank of a node of the new graph, from a rank of the old one that stays below a bound. -/
def newRank (a : Arena β) (p : Plan β) (ids : List NodeId) (rank : NodeId → Nat) (bound : Nat)
    (x : NodeId) : Nat :=
  if x ∈ ids then
    if ids.idxOf x ∈ p.through then bound + ids.idxOf x else 3 * bound + ids.idxOf x
  else if x ∈ p.dependencies a then rank x
  else 2 * bound + rank x

theorem newRank_of_getElem? (a : Arena β) (p : Plan β) (rank : NodeId → Nat) (bound : Nat)
    (hnodup : ids.Nodup) (hid : ids[i]? = some id) : newRank a p ids rank bound id =
      if i ∈ p.through then bound + i else 3 * bound + i := by
  obtain ⟨hlt, rfl⟩ := List.getElem?_eq_some_iff.mp hid
  rw [newRank, if_pos (List.getElem_mem hlt), hnodup.idxOf_getElem]

section Inserted

variable {rank : NodeId → Nat} {bound : Nat} {z : NodeId}
variable (h : a.Inserted b inherited p.staged ids)
include h

theorem Inserted.newRank_of_dependency (hz : z ∈ p.dependencies a) :
    newRank a p ids rank bound z = rank z := by
  rw [newRank, if_neg (h.contains_of_old (contains_of_mem_ancestors hz)), if_pos hz]

theorem Inserted.newRank_of_other (hc : a.contains z = true) (hz : z ∉ p.dependencies a) :
    newRank a p ids rank bound z = 2 * bound + rank z := by
  rw [newRank, if_neg (h.contains_of_old hc), if_neg hz]

theorem Inserted.newRank_of_reads (ha : a.Linked) (hrank : a.RankedBy rank)
    (hlt : ∀ x, a.contains x = true → rank x < bound) (hr : a.Reads x y) :
    newRank a p ids rank bound y < newRank a p ids rank bound x := by
  have hlow := hrank _ _ hr
  have hcy := ha.contains_of_reads hr
  by_cases hx : x ∈ p.dependencies a
  · rw [h.newRank_of_dependency hx, h.newRank_of_dependency (ancestors_closed ha hx hr)]
    exact hlow
  · rw [h.newRank_of_other (contains_of_reads_left hr) hx]
    by_cases hy : y ∈ p.dependencies a
    · have hbound := hlt y hcy
      rw [h.newRank_of_dependency hy]
      omega
    · rw [h.newRank_of_other hcy hy]
      omega

theorem Inserted.newRank_of_target (hp : p.Accepted a)
    (hlt : ∀ x, a.contains x = true → rank x < bound) (hlen : p.staged.length ≤ bound)
    {r : Value × Operand} (hr : r ∈ p.replacements) :
    newRank a p ids rank bound (r.2.resolve ids).node < 2 * bound := by
  obtain ⟨old, target⟩ := r
  cases target with
  | graph w =>
    have hw := mem_dependencies_of_target hp.checked hr
    have hbound := hlt _ (contains_of_mem_ancestors hw)
    change newRank a p ids rank bound w.node < _
    rw [h.newRank_of_dependency hw]
    omega
  | staged j port =>
    obtain ⟨-, -, new, -, hnew, -⟩ := hp.replacements _ hr
    obtain ⟨n, hn, -⟩ := Option.bind_eq_some_iff.mp hnew
    obtain ⟨id, hj⟩ := h.exists_id hn
    have hjlt := (List.getElem?_eq_some_iff.mp hn).1
    rw [resolve_staged hj]
    change newRank a p ids rank bound id < _
    rw [newRank_of_getElem? a p rank bound h.nodup hj, if_pos (mem_through hp.checked hr)]
    omega

theorem Inserted.newRank_of_operand (hp : p.Accepted a)
    (hlt : ∀ x, a.contains x = true → rank x < bound) (hs : p.staged[i]? = some s)
    (hid : ids[i]? = some id) (hlen : p.staged.length ≤ bound) {x : Operand} (hx : x ∈ s.inputs) :
    newRank a p ids rank bound (x.resolve ids).node < newRank a p ids rank bound id := by
  rw [newRank_of_getElem? a p rank bound h.nodup hid]
  cases x with
  | graph w =>
    have hc := contains_of_hasOutput (hp.operands i s hs _ hx)
    have hbound := hlt _ hc
    change newRank a p ids rank bound w.node < _
    by_cases hw : w.node ∈ p.dependencies a
    · rw [h.newRank_of_dependency hw]
      split <;> omega
    · rw [h.newRank_of_other hc hw,
        if_neg fun hi => hw (mem_dependencies_of_through hp.checked hi hs hx)]
      omega
  | staged j port =>
    obtain ⟨hji, -⟩ := hp.operands i s hs _ hx
    obtain ⟨id', hj⟩ : ∃ id', ids[j]? = some id' :=
      ⟨_, List.getElem?_eq_getElem (hji.trans (List.getElem?_eq_some_iff.mp hid).1)⟩
    have hilt := (List.getElem?_eq_some_iff.mp hs).1
    rw [resolve_staged hj]
    change newRank a p ids rank bound id' < _
    rw [newRank_of_getElem? a p rank bound h.nodup hj]
    by_cases hi : i ∈ p.through
    · rw [if_pos hi, if_pos (through_closed hp.checked hi hs hx)]
      omega
    · rw [if_neg hi]
      split <;> omega

end Inserted

theorem Inserted.rankedBy (ha : a.WellFormed) (h : a.Inserted b inherited p.staged ids)
    (hp : p.Accepted a) {rank : NodeId → Nat} (hrank : a.RankedBy rank)
    (hlt : ∀ x, a.contains x = true → rank x < a.occupied) :
    (b.wired p ids).RankedBy (newRank a p ids rank (a.occupied + p.staged.length + 1)) := by
  intro x y hr
  obtain ⟨u, w, hu, rfl, rfl⟩ := mem_producers_iff.mp hr
  have hbound (x : NodeId) (hx : a.contains x = true) :
      rank x < a.occupied + p.staged.length + 1 := (hlt x hx).trans_le (by omega)
  have hlen : p.staged.length ≤ a.occupied + p.staged.length + 1 := by omega
  rcases h.producer?_wired hp.checked hu with ⟨-, v, hv, rfl⟩ | ⟨i, s, x, hs, hid, hx, rfl⟩
  · have hreads := reads_of_producer? hv
    rcases redirect_cases hp ids v with he | ⟨hfar, r, hr, he⟩
    · rw [he]
      exact h.newRank_of_reads ha.linked hrank hbound hreads
    · have htarget := h.newRank_of_target hp hbound hlen hr
      rw [he, h.newRank_of_other (contains_of_reads_left hreads)
        (hfar u (ha.linked.mem_uses_iff.mpr hv))]
      omega
  · exact h.newRank_of_operand hp hbound hs hid hlen hx

end Rank

/-! ### The graph of an accepted plan -/

theorem Inserted.wellFormed_wired {inherited : Annotations} (ha : a.WellFormed)
    (h : a.Inserted b inherited p.staged ids) (hp : p.Accepted a) :
    (b.wired p ids).WellFormed := by
  have hslots : b.SameSlots (b.wired p ids) :=
    (sameSlots_repointAll _ _).trans (sameSlots_wireAll _ _)
  obtain ⟨rank, hrank, hlt⟩ := ha.acyclic.exists_rank ha.linked
  refine h.wellFormed.of_sameSlots hslots (fun x kind hx => ?_)
    ((h.wellFormed.linked.repointAll (h.repointable hp.checked)).wireAll (h.wirable hp.checked))
    (h.rankedBy ha hp hrank hlt).acyclic
  by_cases hmem : x ∈ ids
  · obtain ⟨i, hid⟩ := List.mem_iff_getElem?.mp hmem
    have hi : i < p.staged.length := h.length ▸ (List.getElem?_eq_some_iff.mp hid).1
    have hn := List.getElem?_eq_getElem hi
    rw [kind?, h.new i _ x hn hid] at hx
    rw [kind?_eq_bare, h.bare?_wired_new hp.checked hn hid]
    exact hx
  · rw [kind?, h.old x hmem, ← kind?, kind?_eq_bare] at hx
    rw [kind?_eq_bare, h.bare?_wired_old hp.checked hmem, Option.map_map]
    exact hx

theorem Inserted.contains_resolve {inherited : Annotations}
    (h : a.Inserted b inherited p.staged ids) (hp : p.Checked a) {index port : Nat}
    (hr : (v, .staged index port) ∈ p.replacements) :
    ((Operand.staged index port).resolve ids).node ∈ ids ∧
      (b.wired p ids).contains ((Operand.staged index port).resolve ids).node = true := by
  obtain ⟨-, -, new, -, hnew, -⟩ := hp.replacements _ hr
  obtain ⟨n, hn, -⟩ := Option.bind_eq_some_iff.mp hnew
  obtain ⟨id, hid⟩ := h.exists_id hn
  rw [resolve_staged hid]
  exact ⟨List.mem_of_getElem? hid, contains_of_bare? (h.bare?_wired_new hp hn hid)⟩

theorem Inserted.named {inherited : Annotations} (h : a.Inserted b inherited p.staged ids)
    (hp : p.Checked a) :
    (b.wired p ids).Renamed (nameAll a (b.wired p ids) ids p.replacements) ids := by
  refine renamed_nameAll a fun r hr index port hop => ?_
  obtain ⟨v, x⟩ := r
  subst hop
  exact h.contains_resolve hp hr

theorem Inserted.rewired (ha : a.WellFormed) (hp : p.Accepted a)
    (h : a.Inserted b (a.mergedAnnotations p.sources) p.staged ids) :
    a.Rewired (nameAll a (b.wired p ids) ids p.replacements) p ids := by
  have hslots : b.SameSlots (b.wired p ids) :=
    (sameSlots_repointAll _ _).trans (sameSlots_wireAll _ _)
  have hnamed := h.named hp.checked
  exact {
    wellFormed := hnamed.wellFormed (h.wellFormed_wired ha hp)
    length := h.length
    nodup := h.nodup
    fresh := h.fresh
    unpinned := h.unpinned
    old := fun x hx => (hnamed.bare x hx).trans (h.bare?_wired_old hp.checked hx)
    new := fun i n id hn hid => by
      have hun := hnamed.unnamed id
      rw [h.bare?_wired_new hp.checked hn hid] at hun
      obtain ⟨m, hm, he⟩ := Option.map_eq_some_iff.mp hun
      refine ⟨m.name, hm.trans (congrArg some ?_)⟩
      cases m
      simp_all [Node.unnamed]
    pins := hnamed.slots.pins.trans (hslots.pins.trans h.pins)
    parameters := hnamed.slots.parameters.trans (hslots.parameters.trans h.parameters)
    results := hnamed.slots.results.trans (hslots.results.trans h.results)
    table := hnamed.slots.table.trans (hslots.table.trans h.table) }

theorem rewired_rewire (ha : a.WellFormed) (hp : p.Accepted a) :
    a.Rewired (a.rewire p).1 p (a.rewire p).2 :=
  (inserted_insertStaged ha _ _).rewired ha hp

theorem releases_released (a : Arena β) (p : Plan β) :
    (a.rewire p).1.Releases (a.released p).2 (a.released p).1 :=
  releases_releaseAll _ _

theorem releases_apply (a : Arena β) (p : Plan β) :
    (a.rewire p).1.Releases (a.released p).2 (a.apply p).1 := by
  rw [apply_eq]
  exact (releases_released a p).bump

theorem remains_apply (ha : a.WellFormed) (hp : p.Accepted a) :
    (a.rewire p).1.Remains (a.apply p).1 :=
  (releases_apply a p).remains (rewired_rewire ha hp).wellFormed

/-- A pinned node stays through a commit. -/
theorem WellFormed.contains_apply (ha : a.WellFormed) (hp : p.Accepted a)
    (hx : a.contains x = true) (hpins : a.pins x ≠ 0) : (a.apply p).1.contains x = true := by
  have hr := rewired_rewire ha hp
  obtain ⟨n, hn⟩ := contains_iff.mp (hr.contains_iff.mpr (.inr hx))
  refine (remains_apply ha hp).kept x n hn (.inl ?_)
  rwa [hr.pins]

theorem WellFormed.pins_apply (ha : a.WellFormed) (hp : p.Accepted a) :
    (a.apply p).1.pins = a.pins := by
  rw [(remains_apply ha hp).pins, (rewired_rewire ha hp).pins]

theorem WellFormed.apply (ha : a.WellFormed) (hp : p.Accepted a) : (a.apply p).1.WellFormed :=
  (releases_apply a p).wellFormed (rewired_rewire ha hp).wellFormed

theorem commit_eq_ok_iff {done : Arena β × Commit} :
    a.commit p = .ok done ↔ p.Accepted a ∧ done = a.apply p := by
  rw [commit, bind_eq_ok_iff, ← Plan.check_eq_ok_iff]
  constructor
  · rintro ⟨⟨⟩, hp, he⟩
    exact ⟨hp, (Except.ok.inj he).symm⟩
  · rintro ⟨hp, rfl⟩
    exact ⟨(), hp, rfl⟩

theorem commit_eq_error_iff {e : GraphError} : a.commit p = .error e ↔ p.check a = .error e := by
  rw [commit, bind_eq_error_iff]
  simp [pure, Except.pure]

theorem commit_ne_overflow : a.commit p ≠ .error .overflow :=
  mt commit_eq_error_iff.mp Plan.check_ne_overflow

theorem WellFormed.commit (ha : a.WellFormed) {done : Commit} (e : a.commit p = .ok (b, done)) :
    b.WellFormed := by
  obtain ⟨hp, he⟩ := commit_eq_ok_iff.mp e
  obtain rfl : b = (a.apply p).1 := congrArg Prod.fst he
  exact ha.apply hp

theorem replace_eq_ok_iff {done : Arena β × Nat} : a.replace v w = .ok done ↔
    (Plan.empty.replace v w).Accepted a ∧ done = ((a.apply (Plan.empty.replace v w)).1,
      (a.apply (Plan.empty.replace v w)).2.released) := by
  refine bind_eq_ok_iff.trans ?_
  constructor
  · rintro ⟨committed, hcommit, he⟩
    obtain ⟨hp, rfl⟩ := commit_eq_ok_iff.mp hcommit
    exact ⟨hp, (Except.ok.inj he).symm⟩
  · rintro ⟨hp, rfl⟩
    exact ⟨_, commit_eq_ok_iff.mpr ⟨hp, rfl⟩, rfl⟩

theorem WellFormed.replace (ha : a.WellFormed) {k : Nat} (e : a.replace v w = .ok (b, k)) :
    b.WellFormed := by
  obtain ⟨hp, he⟩ := replace_eq_ok_iff.mp e
  obtain rfl : b = _ := congrArg Prod.fst he
  exact ha.apply hp

end Arena

end TensorGraph
