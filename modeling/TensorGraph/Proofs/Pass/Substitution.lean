import TensorGraph.Proofs.Arena.Annotations
import TensorGraph.Proofs.Pass.Cascade
import TensorGraph.Proofs.Rewrite.Sketching

/-! # Substitutions

A rewrite stages nodes that read only what a root depends on, and puts them in the place of outputs
of the root. What is released after its commit was staged itself or is something that the root
depends on. Everything that reads the root stays, and so does whatever the staged nodes need for
the outputs that are read.
-/

namespace TensorGraph

open Relation

namespace Arena

variable {rs : List (Value × Value)} {r : Value × Value} {v : Value}

theorem redirectAll_eq_of_mem (hnodup : (rs.map Prod.fst).Nodup)
    (hne : ∀ r ∈ rs, ∀ s ∈ rs, s.1 ≠ r.2) (hr : r ∈ rs) : redirectAll rs r.1 = r.2 := by
  obtain ⟨s, hs, he, h⟩ := exists_redirectAll (fun r hr s hs => (hne r hr s hs).symm) ⟨r, hr, rfl⟩
  rw [h, List.inj_on_of_nodup_map hnodup hs hr he]

theorem inserted_apply {β : Type} {a : Arena β} {p : Plan β} :
    (a.apply p).2.inserted = (a.rewire p).2 := by
  rw [apply_eq]

theorem cascade_apply {β : Type} {a : Arena β} {p : Plan β} (ha : a.WellFormed)
    (hp : p.Accepted a) : (a.rewire p).1.Cascade (a.apply p).1
      (p.replacements.map (·.1.node) ++ (a.rewire p).2) := by
  rw [apply_eq]
  exact (cascade_releaseAll (rewired_rewire ha hp).wellFormed _).bump

/-- If staged nodes take the place of values, a node that was there reads staged nodes or what it
read before. -/
theorem Rewired.reads_old {β : Type} {a b : Arena β} {p : Plan β} {ids : List NodeId}
    {x y : NodeId} (hr : a.Rewired b p ids)
    (htargets : ∀ r ∈ p.replacements, (r.2.resolve ids).node ∈ ids) (hread : b.Reads y x)
    (hy : y ∉ ids) (hx : x ∉ ids) : a.Reads y x := by
  obtain ⟨u, v, hu, rfl, rfl⟩ := mem_producers_iff.mp hread
  rw [hr.producer?_old hy] at hu
  obtain ⟨w, hw, rfl⟩ := Option.map_eq_some_iff.mp hu
  rcases redirectAll_cases (p.targets ids) w with ⟨he, -⟩ | ⟨-, t, ht, he⟩
  · rw [Plan.redirect, he]
    exact reads_of_producer? hw
  · obtain ⟨r, hr, rfl⟩ := List.mem_map.mp ht
    rw [Plan.redirect, he] at hx
    exact absurd (htargets r hr) hx

end Arena

open Arena PatternPass

variable {a : Graph} {root x y : NodeId} {nodes : List NodeId} {A : Value → Prop} {p : Plan Body}
variable {r : Value × Operand} {o o' : Operand} {key : String} {i port : Nat}

def residue (a : Graph) (nodes : List NodeId) (p : Plan Body) : Graph :=
  (unpinAll (a.apply p).1 nodes).1

section Residue

variable (ha : a.WellFormed) (hp : p.Accepted a)
include ha hp

theorem cascade_residue (nodes : List NodeId) : (a.rewire p).1.Cascade (residue a nodes p)
    (p.replacements.map (·.1.node) ++ (a.rewire p).2 ++ nodes) := by
  have happly := cascade_apply ha hp
  exact happly.trans (cascade_unpinAll happly.part.wellFormed nodes)

/-- Releases stay within a set of nodes with the roots and the matched nodes, if what the set or a
staged node reads lies in the set or stays. -/
theorem gone_residue {K : NodeId → Prop} (hroots : ∀ r ∈ p.replacements, K r.1.node)
    (hnodes : ∀ x ∈ nodes, K x)
    (hread : ∀ x y, (a.rewire p).1.Reads y x → x ∉ (a.rewire p).2 →
      y ∈ (a.rewire p).2 ∨ K y → K x ∨ (residue a nodes p).contains x = true)
    (hx : (a.rewire p).1.contains x = true) (hgone : ¬ (residue a nodes p).contains x = true) :
    x ∈ (a.rewire p).2 ∨ K x := by
  refine (cascade_residue ha hp nodes).induction (P := fun x => x ∈ (a.rewire p).2 ∨ K x)
    (rewired_rewire ha hp).wellFormed ?_ ?_ hx hgone
  · intro x hmem _ _
    rcases List.mem_append.mp hmem with hmem | hmem
    · rcases List.mem_append.mp hmem with hmem | hmem
      · obtain ⟨r, hr, rfl⟩ := List.mem_map.mp hmem
        exact .inr (hroots r hr)
      · exact .inl hmem
    · exact .inr (hnodes x hmem)
  · intro x y hxy _ hgone hy
    by_cases hx : x ∈ (a.rewire p).2
    · exact .inl hx
    · exact .inr ((hread x y hxy hx hy).resolve_right hgone)

theorem pins_residue (hx : a.pins x = 0) : (residue a nodes p).pins x = 0 := by
  have happly : (a.apply p).1.WellFormed ∧ (a.apply p).1.pins x = 0 :=
    ⟨ha.apply hp, by rw [ha.pins_apply hp, hx]⟩
  refine (unpinAll_induction (P := fun g => g.WellFormed ∧ g.pins x = 0) ?_ happly nodes).2
  rintro g id h k ⟨hg, hpins⟩ e
  refine ⟨hg.unpin e, ?_⟩
  obtain ⟨hid, he⟩ := unpin_eq_ok_iff.mp e
  obtain rfl : h = _ := congrArg Prod.fst he
  rw [((releases_release _ id).remains (hg.modifyPins _ hid)).pins, pins_dropped hid]
  split
  · rename_i he
    rw [← he, hpins]
  · exact hpins

theorem not_dead_residue (hx : x ∈ (a.rewire p).2) : ¬ (residue a nodes p).Dead x := by
  have hwithin : a.DeadWithin a.nodeIds := by
    rintro x ⟨⟨kind, hk, -⟩, -, -⟩
    exact mem_nodeIds_iff_contains.mpr (contains_of_kind? hk)
  have happly : (a.apply p).1.WellFormed ∧ (a.apply p).1.DeadWithin a.nodeIds :=
    ⟨ha.apply hp, hwithin.apply ha hp⟩
  have hresidue := unpinAll_induction (P := fun g => g.WellFormed ∧ g.DeadWithin a.nodeIds)
    (fun g id h k hg e => ⟨hg.1.unpin e, hg.2.unpin hg.1 e⟩) happly nodes
  intro hdead
  exact (rewired_rewire ha hp).fresh x hx (mem_nodeIds_iff_contains.mp (hresidue.2 x hdead))

/-- If a staged node stays, an output that was replaced is read. -/
theorem exists_used (hsketch : p.Sketch A) (hx : x ∈ (a.rewire p).2)
    (hlive : (residue a nodes p).contains x = true) : ∃ r ∈ p.replacements, a.uses r.1 ≠ [] := by
  have hr := rewired_rewire ha hp
  have hpart := (cascade_residue ha hp nodes).part
  by_contra hnone
  push Not at hnone
  -- otherwise every staged node that stays is read by another one that stays
  refine hpart.wellFormed.not_of_read
    (S := fun x => x ∈ (a.rewire p).2 ∧ (residue a nodes p).contains x = true) ?_ x ⟨hx, hlive⟩
  rintro x ⟨hx, hlive⟩
  obtain ⟨i, n, name, hn, -, hnew⟩ := hr.exists_staged hx
  have hkind : (residue a nodes p).kind? x = some n.op.kind := by
    rw [kind?_eq_bare, hpart.bare x hlive, hnew]
    rfl
  obtain ⟨v, hv, u, hu⟩ : ∃ v : Value, v.node = x ∧ ∃ u, u ∈ (residue a nodes p).uses v := by
    by_contra hunused
    push Not at hunused
    obtain ⟨s, hop, hs⟩ := hsketch.primitive n (List.mem_of_getElem? hn)
    rw [hop] at hkind
    refine not_dead_residue ha hp hx ⟨⟨_, hkind, hs⟩,
      pins_residue ha hp (hr.unpinned x hx), fun v hv => ?_⟩
    exact List.eq_nil_iff_forall_not_mem.mpr (hunused v hv)
  have hproducer := hpart.wellFormed.linked.mem_uses_iff.mp hu
  have hread := reads_of_producer? hproducer
  have hreader := contains_of_reads_left hread
  rw [hv] at hread
  refine ⟨u.node, ⟨?_, hreader⟩, hread⟩
  by_contra hold
  have hwired := hpart.producer? hproducer
  rw [hr.producer?_old hold] at hwired
  obtain ⟨w, hw, rfl⟩ := Option.map_eq_some_iff.mp hwired
  rcases redirectAll_cases (p.targets (a.rewire p).2) w with ⟨he, -⟩ | ⟨⟨t, ht, rfl⟩, -⟩
  · rw [Plan.redirect, he] at hv
    exact hr.fresh x hx (hv ▸ contains_of_hasOutput (ha.linked.hasOutput hw))
  · obtain ⟨r, hr, rfl⟩ := List.mem_map.mp ht
    have hmem := ha.linked.mem_uses_iff.mpr hw
    rw [hnone r hr] at hmem
    exact absurd hmem List.not_mem_nil

end Residue

/-- Staged nodes in the place of outputs of a root, in a graph in which the root and some nodes that
it depends on are pinned. -/
structure Substitution (a : Graph) (root : NodeId) (nodes : List NodeId) (A : Value → Prop)
    (p : Plan Body) : Prop where
  wellFormed : a.WellFormed
  accepted : p.Accepted a
  nodes : ∀ x ∈ nodes, ReflTransGen a.Reads root x
  sketch : p.Sketch A
  above : ∀ v, A v → TransGen a.Reads root v.node
  replacements : ∀ r ∈ p.replacements, r.1.node = root ∧ ∃ i port, r.2 = .staged i port

namespace Substitution

variable (hs : Substitution a root nodes A p)
include hs

theorem rewired : a.Rewired (a.rewire p).1 p (a.rewire p).2 :=
  rewired_rewire hs.wellFormed hs.accepted

theorem cascade : (a.rewire p).1.Cascade (residue a nodes p)
    (p.replacements.map (·.1.node) ++ (a.rewire p).2 ++ nodes) :=
  cascade_residue hs.wellFormed hs.accepted nodes

theorem contains_old (hx : a.contains x = true) : (a.rewire p).1.contains x = true :=
  hs.rewired.contains_iff.mpr (.inr hx)

/-! ### What is read before anything is released -/

theorem resolve_mem (hi : i < p.staged.length) :
    ((Operand.staged i port).resolve (a.rewire p).2).node ∈ (a.rewire p).2 := by
  have hlt : i < (a.rewire p).2.length := hs.rewired.length ▸ hi
  rw [resolve_staged (List.getElem?_eq_getElem hlt)]
  exact List.getElem_mem hlt

theorem target_mem (hr : r ∈ p.replacements) :
    (r.2.resolve (a.rewire p).2).node ∈ (a.rewire p).2 := by
  obtain ⟨-, i, port, he⟩ := hs.replacements r hr
  obtain ⟨-, old, new, -, hnew, -⟩ := hs.accepted.replacements r hr
  rw [he] at hnew ⊢
  obtain ⟨n, hn, -⟩ := Option.bind_eq_some_iff.mp hnew
  exact hs.resolve_mem (List.getElem?_eq_some_iff.mp hn).1

theorem reads_old (hread : (a.rewire p).1.Reads y x) (hy : y ∉ (a.rewire p).2)
    (hx : x ∉ (a.rewire p).2) : a.Reads y x :=
  hs.rewired.reads_old (fun _ hr => hs.target_mem hr) hread hy hx

theorem reads_new (hread : (a.rewire p).1.Reads y x) (hy : y ∈ (a.rewire p).2)
    (hx : x ∉ (a.rewire p).2) : ∃ v, A v ∧ v.node = x := by
  obtain ⟨i, n, name, hn, -, hbare⟩ := hs.rewired.exists_staged hy
  rw [Reads, producers_eq_bare, hbare] at hread
  obtain ⟨w, hw, rfl⟩ := List.mem_map.mp hread
  obtain ⟨o, ho, rfl⟩ := List.mem_map.mp hw
  cases o with
  | graph v => exact ⟨v, hs.sketch.operands n (List.mem_of_getElem? hn) _ ho, rfl⟩
  | staged j port =>
    have hj : j < i := (hs.accepted.operands i n hn _ ho).1
    exact absurd (hs.resolve_mem (hj.trans (List.getElem?_eq_some_iff.mp hn).1)) hx

/-! ### What is released -/

/-- Releases do not leave a set of nodes with the root, if what the set reads and what staged nodes
read lies in the set or stays. -/
theorem gone_induction {K : NodeId → Prop} (hroot : K root) (hnodes : ∀ x ∈ nodes, K x)
    (hread : ∀ x y, K y → a.Reads y x → K x ∨ (residue a nodes p).contains x = true)
    (hnew : ∀ v, A v → K v.node ∨ (residue a nodes p).contains v.node = true)
    (hx : (a.rewire p).1.contains x = true) (hgone : ¬ (residue a nodes p).contains x = true) :
    x ∈ (a.rewire p).2 ∨ K x := by
  refine gone_residue hs.wellFormed hs.accepted (fun r hr => (hs.replacements r hr).1 ▸ hroot)
    hnodes (fun x y hxy hx hy => ?_) hx hgone
  by_cases hmem : y ∈ (a.rewire p).2
  · obtain ⟨v, hv, rfl⟩ := hs.reads_new hxy hmem hx
    exact hnew v hv
  · exact hread x y (hy.resolve_left hmem) (hs.reads_old hxy hmem hx)

/-- Only what the root depends on is released, apart from staged nodes. -/
theorem reaches_of_gone (hx : (a.rewire p).1.contains x = true)
    (hgone : ¬ (residue a nodes p).contains x = true) :
    x ∈ (a.rewire p).2 ∨ ReflTransGen a.Reads root x :=
  hs.gone_induction .refl hs.nodes (fun _ _ hy hread => .inl (hy.tail hread))
    (fun v hv => .inl (hs.above v hv).to_reflTransGen) hx hgone

theorem contains_reader (hread : a.Reads y root) : (residue a nodes p).contains y = true := by
  have hy := contains_of_reads_left hread
  by_contra hgone
  rcases hs.reaches_of_gone (hs.contains_old hy) hgone with hmem | hreach
  · exact hs.rewired.fresh y hmem hy
  · exact hs.wellFormed.acyclic root (TransGen.tail' hreach hread)

/-! ### What stays -/

theorem bare?_residue (hx : (residue a nodes p).contains x = true) :
    (residue a nodes p).bare? x = (a.rewire p).1.bare? x := hs.cascade.part.bare x hx

theorem contains_target (hnodup : (p.replacements.map Prod.fst).Nodup) (hr : r ∈ p.replacements)
    (hu : a.uses r.1 ≠ []) :
    (residue a nodes p).contains (r.2.resolve (a.rewire p).2).node = true := by
  obtain ⟨u, hu⟩ := List.exists_mem_of_ne_nil _ hu
  have hproducer := hs.wellFormed.linked.mem_uses_iff.mp hu
  have hread := reads_of_producer? hproducer
  have hold := contains_of_reads_left hread
  rw [(hs.replacements r hr).1] at hread
  have hlive := hs.contains_reader hread
  have hredirect : p.redirect (a.rewire p).2 r.1 = r.2.resolve (a.rewire p).2 := by
    have hmem : (r.1, r.2.resolve (a.rewire p).2) ∈ p.targets (a.rewire p).2 :=
      List.mem_map_of_mem hr
    refine redirectAll_eq_of_mem ?_ ?_ hmem
    · rw [Plan.targets, List.map_map]
      exact hnodup
    · intro t ht t' ht' he
      obtain ⟨s, hmem, rfl⟩ := List.mem_map.mp ht
      obtain ⟨s', hmem', rfl⟩ := List.mem_map.mp ht'
      obtain ⟨-, old, -, hspec, -⟩ := hs.accepted.replacements s' hmem'
      have hfresh := hs.rewired.fresh _ (hs.target_mem hmem)
      have hsame : s'.1 = s.2.resolve (a.rewire p).2 := he
      rw [← hsame] at hfresh
      exact hfresh (contains_of_spec? hspec)
  have hafter : (residue a nodes p).producer? u = some (r.2.resolve (a.rewire p).2) := by
    rw [producer?_eq_bare, hs.bare?_residue hlive, ← producer?_eq_bare,
      hs.rewired.producer?_old (hs.rewired.not_mem_of_contains hold), hproducer, Option.map_some,
      hredirect]
  exact hs.cascade.part.wellFormed.linked.contains_of_reads (reads_of_producer? hafter)

/-- A staged node that stays keeps what it reads, and so on. -/
theorem contains_of_takes (htakes : ReflTransGen p.Takes o o')
    (ho : (residue a nodes p).contains (o.resolve (a.rewire p).2).node = true) :
    (residue a nodes p).contains (o'.resolve (a.rewire p).2).node = true := by
  induction htakes with
  | refl => exact ho
  | tail _ hstep ih =>
    obtain ⟨i, port, rfl, hin⟩ := hstep
    unfold Plan.stagedInputs at hin
    cases hn : p.staged[i]? with
    | none => simp [hn] at hin
    | some n =>
      rw [hn] at hin
      have hlt : i < (a.rewire p).2.length :=
        hs.rewired.length ▸ (List.getElem?_eq_some_iff.mp hn).1
      have hid := List.getElem?_eq_getElem hlt
      rw [resolve_staged hid] at ih
      obtain ⟨name, hnew⟩ := hs.rewired.new i n _ hn hid
      have hbare := (hs.bare?_residue ih).trans hnew
      exact hs.cascade.part.wellFormed.linked.contains_of_input hbare (List.mem_map_of_mem hin)

/-! ### Annotations -/

theorem carries_new (hx : x ∈ (a.rewire p).2) :
    (a.rewire p).1.Carries x key ↔ ∃ s ∈ p.sources, a.Carries s key := by
  obtain ⟨i, n, name, hn, -, hnew⟩ := hs.rewired.exists_staged hx
  have hplain := hs.sketch.plain n (List.mem_of_getElem? hn)
  rw [carries_iff_bare, hnew, ← mem_keys_mergedAnnotations]
  simp [StagedNode.fresh, Node.fresh, hplain, Annotations.mem_keys_merge,
    Annotations.not_mem_keys_empty]

theorem carries_residue (hx : (residue a nodes p).contains x = true) :
    (residue a nodes p).Carries x key ↔ (a.rewire p).1.Carries x key :=
  carries_congr (hs.bare?_residue hx)

theorem carries_old (hx : x ∉ (a.rewire p).2) :
    (a.rewire p).1.Carries x key ↔ a.Carries x key := by
  rw [carries_iff_bare, hs.rewired.old x hx, carries_iff_bare]
  constructor
  · rintro ⟨m, hm, hkey⟩
    obtain ⟨n, hn, rfl⟩ := Option.map_eq_some_iff.mp hm
    exact ⟨n, hn, hkey⟩
  · rintro ⟨n, hn, hkey⟩
    exact ⟨_, Option.map_eq_some_iff.mpr ⟨n, hn, rfl⟩, hkey⟩

theorem retains_iff (hlive : ∃ y ∈ (a.rewire p).2, (residue a nodes p).contains y = true) :
    (residue a nodes p).Retains (a.rewire p).2 key ↔ ∃ s ∈ p.sources, a.Carries s key := by
  constructor
  · rintro ⟨y, hy, n, hn, hkey | ⟨body, z, hop, -⟩⟩
    · have hcarries : (residue a nodes p).Carries y key := ⟨n, hn, hkey⟩
      exact (hs.carries_new hy).mp ((hs.carries_residue (contains_of_node? hn)).mp hcarries)
    · -- staged nodes are primitives
      obtain ⟨i, m, name, hm, -, hnew⟩ := hs.rewired.exists_staged hy
      obtain ⟨s, hs', -⟩ := hs.sketch.primitive m (List.mem_of_getElem? hm)
      have hbare : (residue a nodes p).bare? y = some n.bare := congrArg (Option.map Node.bare) hn
      rw [hs.bare?_residue (contains_of_node? hn), hnew] at hbare
      have hsame : m.op = n.op := congrArg Node.op (Option.some.inj hbare)
      rw [hs', hop] at hsame
      cases hsame
  · intro hsource
    obtain ⟨y, hy, hlive⟩ := hlive
    obtain ⟨n, hn, hkey⟩ := (hs.carries_residue hlive).mpr ((hs.carries_new hy).mpr hsource)
    exact ⟨y, hy, n, hn, .inl hkey⟩

theorem contains_needed {v w : Value} (hone : p.replacements = [(v, o)])
    (hlive : ∃ y ∈ (a.rewire p).2, (residue a nodes p).contains y = true)
    (hneeds : ReflTransGen p.Takes o (.graph w)) :
    (residue a nodes p).contains w.node = true := by
  obtain ⟨y, hy, hlive⟩ := hlive
  obtain ⟨r, hr, hu⟩ := exists_used hs.wellFormed hs.accepted hs.sketch hy hlive
  have htarget := hs.contains_target (by rw [hone]; exact List.nodup_singleton v) hr hu
  obtain rfl := List.mem_singleton.mp (hone ▸ hr)
  exact hs.contains_of_takes hneeds htarget

end Substitution

/-- A rewrite takes annotations from the sources alone. Apart from these, and unless nothing that it
staged stays, what was there before is released only if the rewrite overlooks it. -/
structure Accounts (a : Graph) (root : NodeId) (nodes : List NodeId) (p : Plan Body)
    (sources : List NodeId) (Overlooked : NodeId → Prop) : Prop where
  substitution : ∃ A, Substitution a root nodes A p
  named : ∀ s, s ∈ p.sources ↔ s ∈ sources
  gone : ∀ x, a.contains x = true → ¬ (residue a nodes p).contains x = true →
    x ∈ sources ∨ Overlooked x

theorem Accounts.mono {sources sources' : List NodeId} {Overlooked Overlooked' : NodeId → Prop}
    (h : Accounts a root nodes p sources Overlooked) (hsources : ∀ s, s ∈ sources ↔ s ∈ sources')
    (hover : ∀ x, Overlooked x → x ∈ sources' ∨ Overlooked' x) :
    Accounts a root nodes p sources' Overlooked' :=
  ⟨h.substitution, fun s => (h.named s).trans (hsources s), fun x hx hgone =>
    (h.gone x hx hgone).elim (fun hmem => .inl ((hsources x).mp hmem)) (hover x)⟩

/-- What was released passed its annotations on, or it was overlooked. -/
theorem Accounts.retains {sources : List NodeId} {Overlooked : NodeId → Prop}
    (h : Accounts a root nodes p sources Overlooked)
    (hlive : ∃ y ∈ (a.rewire p).2, (residue a nodes p).contains y = true) :
    (∀ key, (residue a nodes p).Retains (a.rewire p).2 key ↔ ∃ s ∈ sources, a.Carries s key) ∧
      ∀ x key, (a.rewire p).1.Carries x key → ¬ (residue a nodes p).contains x = true →
        (residue a nodes p).Retains (a.rewire p).2 key ∨ Overlooked x := by
  obtain ⟨A, hs⟩ := h.substitution
  have hiff (key : String) : (residue a nodes p).Retains (a.rewire p).2 key ↔
      ∃ s ∈ sources, a.Carries s key := by
    rw [hs.retains_iff hlive]
    simp only [h.named]
  refine ⟨hiff, fun x key hkey hgone => ?_⟩
  by_cases hx : x ∈ (a.rewire p).2
  · exact .inl ((hs.retains_iff hlive).mpr ((hs.carries_new hx).mp hkey))
  · have hold := (hs.carries_old hx).mp hkey
    rcases h.gone x (contains_of_node? hold.choose_spec.1) hgone with hsource | hover
    · exact .inl ((hiff key).mpr ⟨x, hsource, hold⟩)
    · exact .inr hover

/-- One staged output takes the place of the first output of the root, and it needs every value that
may be read. -/
theorem accounts_of_single {q : Plan Body} {sources : List NodeId} {Overlooked : NodeId → Prop}
    (ha : a.WellFormed) (hp : p.Accepted a)
    (hlive : ∃ y ∈ (a.rewire p).2, (residue a nodes p).contains y = true)
    (e : p = (q.inherit sources).replace (root.output 0) (.staged i port))
    (hnodes : ∀ x ∈ nodes, ReflTransGen a.Reads root x) (hq : q.Sketch A)
    (hext : Plan.empty.Extends q)
    (hneeds : ∀ v, A v → ReflTransGen q.Takes (.staged i port) (.graph v))
    (habove : ∀ v, A v → TransGen a.Reads root v.node)
    (hroot : root ∈ sources ∨ Overlooked root)
    (hmatched : ∀ x ∈ nodes, x ∈ sources ∨ Overlooked x)
    (hread : ∀ x y, y ∈ sources ∨ Overlooked y → a.Reads y x →
      (x ∈ sources ∨ Overlooked x) ∨ ∃ v, A v ∧ v.node = x) :
    Accounts a root nodes p sources Overlooked := by
  subst e
  have hreplacements : ((q.inherit sources).replace (root.output 0) (.staged i port)).replacements =
      [(root.output 0, .staged i port)] := by
    change q.replacements ++ _ = _
    rw [hext.replacements]
    rfl
  have hs : Substitution a root nodes A
      ((q.inherit sources).replace (root.output 0) (.staged i port)) := by
    refine ⟨ha, hp, hnodes, ⟨hq.plain, hq.primitive, hq.operands⟩, habove, ?_⟩
    rw [hreplacements]
    exact List.forall_mem_singleton.mpr ⟨rfl, i, port, rfl⟩
  have hneeded (v : Value) (hv : A v) := hs.contains_needed hreplacements hlive (hneeds v hv)
  constructor
  · exact ⟨A, hs⟩
  · intro s
    refine Plan.mem_inherit_iff.trans (or_iff_right ?_)
    rw [hext.sources]
    exact List.not_mem_nil
  · intro x hx hgone
    have hsplit := hs.gone_induction hroot hmatched (fun x y hy hxy => ?_)
      (fun v hv => .inr (hneeded v hv)) (hs.contains_old hx) hgone
    · exact hsplit.resolve_left fun hmem => hs.rewired.fresh x hmem hx
    · refine (hread x y hy hxy).imp_right ?_
      rintro ⟨v, hv, rfl⟩
      exact hneeded v hv

end TensorGraph
