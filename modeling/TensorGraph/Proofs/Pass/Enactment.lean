import TensorGraph.Proofs.Pass.Balance
import TensorGraph.Proofs.Pass.Substitution
import TensorGraph.Proofs.Pass.Survivors

/-! # What a commit does

Replacements are carried out one after the other. If no value is replaced twice and none that takes
the place of another is replaced itself, they mean the same as all of them at once, and so their
order does not matter: the same nodes stay, and they read the same.
-/

namespace TensorGraph

theorem closure_subset {α : Type} [DecidableEq α] {next : α → List α} {domain work more : List α}
    (h : work ⊆ more) : closure next domain work ⊆ closure next domain more := by
  intro x hx
  exact closure_induction (p := fun x => x ∈ closure next domain more)
    (fun x hx hd => mem_closure_of_mem_work (h hx) hd)
    (fun x y hx hy hd => closure_closed hx hy hd) hx

namespace Plan

variable {β : Type} {p : Plan β} {a : Arena β} {v : Value} {rs : List (Value × Operand)}

/-- No value is replaced twice, and no value of the graph that takes the place of another is
replaced itself. -/
structure Simultaneous (p : Plan β) : Prop where
  nodup : (p.replacements.map Prod.fst).Nodup
  stays : ∀ r ∈ p.replacements, ∀ w, r.2 = .graph w → ∀ s ∈ p.replacements, s.1 ≠ w

def reordered (p : Plan β) (rs : List (Value × Operand)) : Plan β := { p with replacements := rs }

theorem graphRoots_subset {xs ys : List Operand} (h : xs ⊆ ys) :
    p.graphRoots xs ⊆ p.graphRoots ys := by
  have hthrough (l : List Nat) (next : Nat → List Nat) :
      closure next l (xs.filterMap stagedIndex?) ⊆ closure next l (ys.filterMap stagedIndex?) :=
    closure_subset (List.filterMap_subset stagedIndex? h)
  refine List.filterMap_subset _ (List.append_subset.mpr ⟨?_, ?_⟩)
  · exact List.subset_append_of_subset_left _ h
  · refine List.subset_append_of_subset_right _ fun x hx => ?_
    obtain ⟨i, hi, hx⟩ := List.mem_flatMap.mp hx
    exact List.mem_flatMap.mpr ⟨i, hthrough _ _ hi, hx⟩

theorem Accepted.reordered (hp : p.Accepted a) (hrs : rs.Perm p.replacements) :
    (p.reordered rs).Accepted a where
  operands := hp.operands
  sources := hp.sources
  replacements r hr :=
    ⟨(hp.replacements r (hrs.subset hr)).differs, (hp.replacements r (hrs.subset hr)).typed⟩
  acyclic r hr u hu hmem := by
    refine hp.acyclic r (hrs.subset hr) u hu (closure_subset ?_ hmem)
    exact graphRoots_subset (p := p) (List.map_subset _ hrs.subset)

theorem Simultaneous.reordered (hs : p.Simultaneous) (hrs : rs.Perm p.replacements) :
    (p.reordered rs).Simultaneous where
  nodup := (hrs.map Prod.fst).nodup_iff.mpr hs.nodup
  stays r hr w hw s hmem := hs.stays r (hrs.subset hr) w hw s (hrs.subset hmem)

end Plan

namespace Arena

variable {β : Type} {a b c : Arena β} {x y id : NodeId} {n : Node β} {v w : Value} {u : Use}
variable {p : Plan β} {r : Value × Operand} {rs : List (Value × Operand)} {ids : List NodeId}

/-! ### Replacements at once -/

theorem redirect_of_not_mem (h : ∀ r ∈ p.replacements, r.1 ≠ v) (ids : List NodeId) :
    p.redirect ids v = v := by
  refine redirectAll_eq_self fun t ht => ?_
  obtain ⟨r, hr, rfl⟩ := List.mem_map.mp ht
  exact h r hr

theorem rewire_reordered : (a.rewire (p.reordered rs)).2 = (a.rewire p).2 := rfl

section Accepted

variable (ha : a.WellFormed) (hp : p.Accepted a) (hs : p.Simultaneous)
include ha hp hs

theorem redirect_of_mem (hr : r ∈ p.replacements) :
    p.redirect (a.rewire p).2 r.1 = r.2.resolve (a.rewire p).2 := by
  have hinserted := inserted_insertStaged ha (a.mergedAnnotations p.sources) p.staged
  have hmem : (r.1, r.2.resolve (a.rewire p).2) ∈ p.targets (a.rewire p).2 :=
    List.mem_map_of_mem hr
  refine redirectAll_eq_of_mem ?_ ?_ hmem
  · rw [Plan.targets, List.map_map]
    exact hs.nodup
  · intro t ht t' ht' he
    obtain ⟨s, hmem, rfl⟩ := List.mem_map.mp ht
    obtain ⟨s', hmem', rfl⟩ := List.mem_map.mp ht'
    obtain ⟨-, -, new, -, hnew, -⟩ := hp.replacements s hmem
    obtain ⟨-, old, -, hold, -⟩ := hp.replacements s' hmem'
    have hne : s.2 ≠ .graph s'.1 := fun hg => hs.stays s hmem _ hg s' hmem' rfl
    exact hinserted.resolve_ne hnew hne (contains_of_spec? hold) he.symm

theorem redirect_reordered (hrs : rs.Perm p.replacements) :
    (p.reordered rs).redirect (a.rewire p).2 = p.redirect (a.rewire p).2 := by
  funext v
  by_cases hv : ∃ r ∈ p.replacements, r.1 = v
  · obtain ⟨r, hr, rfl⟩ := hv
    have hmem : r ∈ (p.reordered rs).replacements := hrs.symm.subset hr
    exact (redirect_of_mem ha (hp.reordered hrs) (hs.reordered hrs) hmem).trans
      (redirect_of_mem ha hp hs hr).symm
  · push Not at hv
    rw [redirect_of_not_mem hv, redirect_of_not_mem fun r hr => hv r (hrs.subset hr)]

/-! ### Another order -/

theorem bare?_rewire_old (hrs : rs.Perm p.replacements) (hx : x ∉ (a.rewire p).2) :
    (a.rewire (p.reordered rs)).1.bare? x = (a.rewire p).1.bare? x := by
  rw [(rewired_rewire ha hp).old x hx, (rewired_rewire ha (hp.reordered hrs)).old x hx]
  exact congrArg (fun f => (a.bare? x).map fun n => { n with inputs := n.inputs.map f })
    (redirect_reordered ha hp hs hrs)

theorem unnamed_rewire (hrs : rs.Perm p.replacements) (x : NodeId) :
    ((a.rewire (p.reordered rs)).1.bare? x).map Node.unnamed =
      ((a.rewire p).1.bare? x).map Node.unnamed := by
  by_cases hx : x ∈ (a.rewire p).2
  · obtain ⟨i, n, name, hn, hid, hnew⟩ := (rewired_rewire ha hp).exists_staged hx
    obtain ⟨name', hnew'⟩ := (rewired_rewire ha (hp.reordered hrs)).new i n x hn hid
    rw [hnew, hnew']
    rfl
  · rw [bare?_rewire_old ha hp hs hrs hx]

end Accepted

/-! ### What has the same nodes up to names -/

section Unnamed

variable (h : ∀ x, (b.bare? x).map Node.unnamed = (a.bare? x).map Node.unnamed)
include h

theorem producer?_of_unnamed : b.producer? = a.producer? := by
  funext u
  have hu := congrArg (fun o => o.bind fun n : Node β => n.inputs[u.port]?) (h u.node)
  rw [Option.bind_map, Option.bind_map] at hu
  rw [producer?_eq_bare, producer?_eq_bare]
  exact hu

theorem kind?_of_unnamed : b.kind? = a.kind? := by
  funext x
  have hk := congrArg (Option.map Node.kind) (h x)
  rw [Option.map_map, Option.map_map] at hk
  rw [kind?_eq_bare, kind?_eq_bare]
  exact hk

theorem reads_of_unnamed : b.Reads x y ↔ a.Reads x y := by
  simp only [Reads, mem_producers_iff, producer?_of_unnamed h]

theorem contains_of_unnamed : b.contains x = a.contains x := by
  have hx := congrArg Option.isSome (h x)
  rwa [Option.isSome_map, Option.isSome_map, ← contains_eq_bare, ← contains_eq_bare] at hx

end Unnamed

theorem Linked.perm_uses (ha : a.Linked) (hb : b.Linked) (h : b.producer? = a.producer?)
    (v : Value) : (b.uses v).Perm (a.uses v) := by
  refine List.perm_iff_count.mpr fun u => ?_
  rw [ha v u, hb v u, h]

theorem occupied_eq_of_contains (h : ∀ x, b.contains x = a.contains x) :
    b.occupied = a.occupied := by
  rw [← length_nodeIds, ← length_nodeIds]
  refine List.Perm.length_eq ((List.perm_ext_iff_of_nodup nodup_nodeIds nodup_nodeIds).mpr ?_)
  intro x
  rw [mem_nodeIds_iff_contains, mem_nodeIds_iff_contains, h x]

/-! ### Commits -/

/-- A commit did what its plan asks for and nothing else. The staged nodes get new handles and read
what they declare. An old node that is left reads what takes the place of a replaced output, and
reads what it read otherwise. Nothing else of it changes. -/
structure Enacts (a b : Arena β) (p : Plan β) (done : Commit) : Prop where
  wellFormed : b.WellFormed
  length : done.inserted.length = p.staged.length
  nodup : done.inserted.Nodup
  fresh : ∀ id ∈ done.inserted, ¬ a.contains id = true
  nodes : ∀ x, b.contains x = true → a.contains x = true ∨ x ∈ done.inserted
  replaced : ∀ u, ∀ r ∈ p.replacements, a.producer? u = some r.1 → b.contains u.node = true →
    b.producer? u = some (r.2.resolve done.inserted)
  unchanged : ∀ u, a.contains u.node = true → (∀ r ∈ p.replacements, a.producer? u ≠ some r.1) →
    b.contains u.node = true → b.producer? u = a.producer? u
  old : ∀ x n, a.bare? x = some n → b.contains x = true →
    ∃ inputs, inputs.length = n.inputs.length ∧ b.bare? x = some { n with inputs }
  staged : ∀ (i : Nat) (n : StagedNode β) (id : NodeId), p.staged[i]? = some n →
    done.inserted[i]? = some id → b.contains id = true →
    ∃ name, b.bare? id = some { (n.fresh (a.mergedAnnotations p.sources)) with
      inputs := n.inputs.map (Operand.resolve done.inserted), name }
  /-- Parameters, results and pinned nodes stay. -/
  kept : ∀ x, a.Holds x → b.contains x = true
  pins : b.pins = a.pins
  parameters : b.parameters = a.parameters
  results : b.results = a.results
  table : b.table = a.table
  live : b.live + done.released = a.live + done.inserted.length

/-- The same nodes read the same. Lists of uses may be in another order, and some nodes may have
another name. -/
structure Resembles (b c : Arena β) (ids : List NodeId) : Prop where
  contains : c.contains = b.contains
  bare : ∀ x, x ∉ ids → c.bare? x = b.bare? x
  unnamed : ∀ x, (c.bare? x).map Node.unnamed = (b.bare? x).map Node.unnamed
  uses : ∀ v, (c.uses v).Perm (b.uses v)
  pins : c.pins = b.pins
  parameters : c.parameters = b.parameters
  results : c.results = b.results
  table : c.table = b.table

theorem Holds.rewire (hr : a.Rewired b p ids) (hx : a.Holds x) : b.Holds x := by
  have hc := hx.contains
  rw [Holds, hr.kind?_old (hr.not_mem_of_contains hc), hr.pins, hr.contains_iff]
  exact hx.imp_right fun h => h.imp_right fun hpins => ⟨.inr hc, hpins.2⟩

theorem Holds.remains (hr : a.Remains b) (hx : a.Holds x) : b.contains x = true := by
  obtain ⟨n, hn⟩ := contains_iff.mp hx.contains
  have hk : a.kind? x = some n.kind := kind?_eq_some_iff.mpr ⟨n, hn, rfl⟩
  refine hr.kept x n hn ?_
  by_contra hnot
  push Not at hnot
  exact (not_holds_iff hk).mpr ⟨Bool.eq_false_iff.mpr hnot.2, hnot.1⟩ hx

section Applied

variable (ha : a.WellFormed) (hp : p.Accepted a)
include ha hp

theorem producer?_apply (hu : a.contains u.node = true)
    (hc : (a.apply p).1.contains u.node = true) :
    (a.apply p).1.producer? u = (a.producer? u).map (p.redirect (a.rewire p).2) := by
  have hr := rewired_rewire ha hp
  rw [producer?_eq_bare, (remains_apply ha hp).bare _ hc, ← producer?_eq_bare,
    hr.producer?_old (hr.not_mem_of_contains hu)]

theorem contains_of_apply (hx : (a.apply p).1.contains x = true) :
    (a.rewire p).1.contains x = true := by
  rw [contains_eq_bare, ← (remains_apply ha hp).bare x hx, ← contains_eq_bare]
  exact hx

theorem enacts_apply (hs : p.Simultaneous) : a.Enacts (a.apply p).1 p (a.apply p).2 := by
  have hr := rewired_rewire ha hp
  have hremains := remains_apply ha hp
  have hwf := ha.apply hp
  rw [← inserted_apply (a := a) (p := p)] at hr
  refine ⟨hwf, hr.length, hr.nodup, hr.fresh, fun x hx => ?_, ?_, ?_, ?_, ?_, fun x hx => ?_,
    hremains.pins.trans hr.pins, hremains.parameters.trans hr.parameters,
    hremains.results.trans hr.results, hremains.table.trans hr.table, ?_⟩
  · exact (hr.contains_iff.mp (contains_of_apply ha hp hx)).symm
  · intro u r hmem hu hc
    have hold := contains_of_reads_left (reads_of_producer? hu)
    rw [producer?_apply ha hp hold hc, hu, Option.map_some, redirect_of_mem ha hp hs hmem,
      inserted_apply]
  · intro u hold hne hc
    rw [producer?_apply ha hp hold hc]
    cases hu : a.producer? u with
    | none => rfl
    | some v =>
      have hv : ∀ r ∈ p.replacements, r.1 ≠ v := fun r hmem he => hne r hmem (he ▸ hu)
      rw [Option.map_some, redirect_of_not_mem hv]
  · intro x n hn hc
    refine ⟨n.inputs.map (p.redirect (a.apply p).2.inserted), List.length_map _, ?_⟩
    rw [hremains.bare x hc, hr.old x (hr.not_mem_of_contains (contains_of_bare? hn)), hn]
    rfl
  · intro i n id hn hid hc
    rw [hremains.bare id hc]
    exact hr.new i n id hn hid
  · exact (hx.rewire hr).remains hremains
  · rw [hwf.live, ha.live]
    exact ha.occupied_apply hp

theorem contains_apply_reordered (hs : p.Simultaneous) (hrs : rs.Perm p.replacements) :
    (a.apply (p.reordered rs)).1.contains = (a.apply p).1.contains := by
  have hq := hp.reordered hrs
  have hunnamed := unnamed_rewire ha hp hs hrs
  have hkind := kind?_of_unnamed hunnamed
  have hpins : (a.rewire (p.reordered rs)).1.pins = (a.rewire p).1.pins :=
    (rewired_rewire ha hq).pins.trans (rewired_rewire ha hp).pins.symm
  have hseeds : ((p.reordered rs).replacements.map (·.1.node) ++ (a.rewire p).2).Perm
      (p.replacements.map (·.1.node) ++ (a.rewire p).2) := (hrs.map _).append_right _
  funext x
  rw [Bool.eq_iff_iff, apply_eq, apply_eq]
  change ((a.rewire (p.reordered rs)).1.releaseAll _).1.contains x = true ↔
    ((a.rewire p).1.releaseAll _).1.contains x = true
  rw [contains_releaseAll_iff (rewired_rewire ha hq).wellFormed,
    contains_releaseAll_iff (rewired_rewire ha hp).wellFormed, contains_of_unnamed hunnamed]
  refine and_congr_right fun _ => not_congr ⟨fun h => ?_, fun h => ?_⟩
  · exact h.congr hkind.symm hpins.symm (fun _ _ => (reads_of_unnamed hunnamed).symm) hseeds.subset
  · exact h.congr hkind hpins (fun _ _ => reads_of_unnamed hunnamed) hseeds.symm.subset

theorem resembles_reordered (hs : p.Simultaneous) (hrs : rs.Perm p.replacements) :
    (a.apply p).1.Resembles (a.apply (p.reordered rs)).1 (a.rewire p).2 := by
  have hq := hp.reordered hrs
  have hr := remains_apply ha hp
  have hr' := remains_apply ha hq
  have hcontains := contains_apply_reordered ha hp hs hrs
  have hunnamed (x : NodeId) : ((a.apply (p.reordered rs)).1.bare? x).map Node.unnamed =
      ((a.apply p).1.bare? x).map Node.unnamed := by
    by_cases hx : (a.apply p).1.contains x = true
    · rw [hr.bare x hx, hr'.bare x (hcontains ▸ hx), unnamed_rewire ha hp hs hrs]
    · have hx' : ¬ (a.apply (p.reordered rs)).1.contains x = true := hcontains ▸ hx
      rw [contains_eq_bare, Option.not_isSome_iff_eq_none] at hx hx'
      rw [hx, hx']
  refine ⟨hcontains, fun x hx => ?_, hunnamed, ?_, ?_, ?_, ?_, ?_⟩
  · by_cases hc : (a.apply p).1.contains x = true
    · rw [hr.bare x hc, hr'.bare x (hcontains ▸ hc), bare?_rewire_old ha hp hs hrs hx]
    · have hc' : ¬ (a.apply (p.reordered rs)).1.contains x = true := hcontains ▸ hc
      rw [contains_eq_bare, Option.not_isSome_iff_eq_none] at hc hc'
      rw [hc, hc']
  · exact (ha.apply hp).linked.perm_uses (ha.apply hq).linked (producer?_of_unnamed hunnamed)
  · rw [ha.pins_apply hq, ha.pins_apply hp]
  · rw [hr'.parameters, hr.parameters, (rewired_rewire ha hq).parameters,
      (rewired_rewire ha hp).parameters]
  · rw [hr'.results, hr.results, (rewired_rewire ha hq).results, (rewired_rewire ha hp).results]
  · rw [hr'.table, hr.table, (rewired_rewire ha hq).table, (rewired_rewire ha hp).table]

theorem commit_reordered (hs : p.Simultaneous) (hrs : rs.Perm p.replacements) :
    (a.apply (p.reordered rs)).2 = (a.apply p).2 := by
  have hcount := ha.occupied_apply hp
  have hcount' := ha.occupied_apply (hp.reordered hrs)
  have hsame := occupied_eq_of_contains
    fun x => congrFun (contains_apply_reordered ha hp hs hrs) x
  have hinserted : (a.apply (p.reordered rs)).2.inserted = (a.apply p).2.inserted := by
    rw [inserted_apply, inserted_apply, rewire_reordered]
  have hreleased : (a.apply (p.reordered rs)).2.released = (a.apply p).2.released := by
    rw [hinserted] at hcount'
    omega
  have hreplaced : (a.apply (p.reordered rs)).2.replaced = (a.apply p).2.replaced := by
    rw [apply_eq, apply_eq]
    exact hrs.length_eq
  have hext {c d : Commit} (h₁ : c.inserted = d.inserted) (h₂ : c.released = d.released)
      (h₃ : c.replaced = d.replaced) : c = d := by
    cases c
    cases d
    cases h₁
    cases h₂
    cases h₃
    rfl
  exact hext hinserted hreleased hreplaced

end Applied

/-- A commit does what its plan schedules and nothing else, if no value is replaced twice and none
that takes the place of another is replaced itself. In another order of the replacements it is
accepted as well, inserts and releases the same nodes, and leaves the same nodes that read the
same. -/
theorem commit_enacts {done : Commit} (ha : a.WellFormed) (hs : p.Simultaneous)
    (e : a.commit p = .ok (b, done)) : a.Enacts b p done ∧
      ∀ rs, rs.Perm p.replacements →
        ∃ c, a.commit (p.reordered rs) = .ok (c, done) ∧ b.Resembles c done.inserted := by
  obtain ⟨hp, he⟩ := commit_eq_ok_iff.mp e
  obtain rfl : b = (a.apply p).1 := congrArg Prod.fst he
  obtain rfl : done = (a.apply p).2 := congrArg Prod.snd he
  refine ⟨enacts_apply ha hp hs, fun rs hrs => ⟨(a.apply (p.reordered rs)).1, ?_, ?_⟩⟩
  · rw [← commit_reordered ha hp hs hrs]
    exact commit_eq_ok_iff.mpr ⟨hp.reordered hrs, rfl⟩
  · rw [inserted_apply]
    exact resembles_reordered ha hp hs hrs

end Arena

/-- A sum in the place of another one that adds the same, and the product in the place of its
reshape. -/
def Pipeline.twofold : Plan Body where
  staged := [⟨Primitive.add, [.graph (first 3), .graph (first 2)], [f32 [1, 3]], "", .empty⟩]
  replacements := [(first 4, .staged 0 0), (first 5, .graph (first 3))]
  sources := []

theorem Pipeline.simultaneous_twofold : twofold.Simultaneous where
  nodup := by decide
  stays := by
    intro r hr w hw s hs
    simp only [twofold, List.mem_cons, List.not_mem_nil, or_false] at hr hs
    rcases hr with rfl | rfl
    · cases hw
    · obtain rfl : first 3 = w := Operand.graph.inj hw
      rcases hs with rfl | rfl <;> decide

/-- The result reads the new sum, which reads the product. The old sum and the reshape go, and the
replacements may as well come the other way round. -/
theorem commit_twofold : Pipeline.dangling.WellFormed ∧ Pipeline.twofold.Simultaneous ∧
    ∃ b done, Pipeline.dangling.commit Pipeline.twofold = .ok (b, done) ∧ done.released = 2 ∧
      b.producer? (Pipeline.reader 6 0) = some ((Operand.staged 0 0).resolve done.inserted) ∧
      ∃ c, Pipeline.dangling.commit (Pipeline.twofold.reordered
        Pipeline.twofold.replacements.reverse) = .ok (c, done) ∧ b.Resembles c done.inserted := by
  have hreleased : (Pipeline.dangling.commit Pipeline.twofold).toOption.map
      (fun done => (done.2.released, done.1.contains ⟨6, 0⟩)) = some (2, true) := by cbv
  obtain ⟨⟨b, done⟩, e, hdone⟩ := map_toOption_eq_some_iff.mp hreleased
  obtain ⟨hcount, hlive⟩ := Prod.mk.inj hdone
  obtain ⟨henacts, horder⟩ := Arena.commit_enacts Pipeline.wellFormed_dangling
    Pipeline.simultaneous_twofold e
  refine ⟨Pipeline.wellFormed_dangling, Pipeline.simultaneous_twofold, b, done, e, hcount, ?_,
    horder _ (List.reverse_perm _)⟩
  exact henacts.replaced _ _ List.mem_cons_self (by rfl) hlive

end TensorGraph
