import TensorGraph.Proofs.Pass.Balance
import TensorGraph.Proofs.Pass.Substitution

/-! # Local plans

A plan is local to a match if it reads nothing but what the matched nodes read, and puts that or
staged nodes in the place of outputs of the root. What nothing read before is not read after such a
plan either, and neither are the outputs that it replaces. If these were not read in the first
place, a root that stays is left with everything else as it was.
-/

namespace TensorGraph

open Relation

def Arena.Feeds {β : Type} (a : Arena β) (nodes : List NodeId) (v : Value) : Prop :=
  ∃ u, u.node ∈ nodes ∧ a.producer? u = some v

theorem Arena.feeds_congr {β : Type} {a b : Arena β} (h : b.bare? = a.bare?) :
    b.Feeds = a.Feeds := by
  funext nodes v
  rw [Feeds, Feeds, producer?_congr h]

/-- The plan reads values of the second kind only, and puts these or staged nodes in the place of
values of the first kind. -/
structure Plan.Confined (O A : Value → Prop) (p : Plan Body) : Prop where
  sketch : p.Sketch A
  replacements : ∀ r ∈ p.replacements, O r.1 ∧ r.2.Within A

theorem Plan.Confined.mono {O O' A : Value → Prop} {p : Plan Body} (h : p.Confined O A)
    (hO : ∀ v, O v → O' v) : p.Confined O' A :=
  ⟨h.sketch, fun r hr => (h.replacements r hr).imp_left (hO r.1)⟩

open Arena PatternPass

variable {a : Graph} {root x y : NodeId} {nodes : List NodeId} {p : Plan Body} {v : Value}
variable {u : Use} {r : Value × Operand} {o : Operand}

theorem PatternPass.contains_unpinAll (ha : a.WellFormed) (hx : a.contains x = true)
    (hpins : nodes.count x < a.pins x) : (unpinAll a nodes).1.contains x = true := by
  induction nodes generalizing a with
  | nil => exact hx
  | cons id nodes ih =>
    rw [List.count_cons] at hpins
    cases e : a.unpin id with
    | error f =>
      rw [unpinAll_cons_error e]
      exact ih ha hx (by omega)
    | ok done =>
      obtain ⟨b, k⟩ := done
      rw [unpinAll_cons_ok e]
      obtain ⟨hid, he⟩ := unpin_eq_ok_iff.mp e
      obtain rfl : b = _ := congrArg Prod.fst he
      have hremains := (releases_release _ id).remains (ha.modifyPins dropPin hid)
      have hleft : nodes.count x < (a.modifyPins id.index dropPin).pins x := by
        rw [pins_dropped hid]
        split
        · rename_i hxid
          rw [hxid, beq_self_eq_true, if_pos rfl] at hpins
          rw [hxid]
          omega
        · exact (Nat.le_add_right _ _).trans_lt hpins
      obtain ⟨n, hn⟩ := contains_iff.mp hx
      refine ih (ha.unpin e) (hremains.kept x n ?_ (.inl (by omega))) ?_
      · rwa [node?_modifyPins]
      · rwa [hremains.pins]

/-- An accepted plan for a root and nodes that it depends on, confined to what they read. -/
structure Local (a : Graph) (root : NodeId) (nodes : List NodeId) (p : Plan Body) : Prop where
  wellFormed : a.WellFormed
  accepted : p.Accepted a
  reaches : ∀ x ∈ nodes, ReflTransGen a.Reads root x
  confined : p.Confined (·.node = root) (a.Feeds nodes)

namespace Local

variable (hp : Local a root nodes p)
include hp

theorem rewired : a.Rewired (a.rewire p).1 p (a.rewire p).2 :=
  rewired_rewire hp.wellFormed hp.accepted

theorem cascade : (a.rewire p).1.Cascade (residue a nodes p)
    (p.replacements.map (·.1.node) ++ (a.rewire p).2 ++ nodes) :=
  cascade_residue hp.wellFormed hp.accepted nodes

theorem contains_old (hx : a.contains x = true) : (a.rewire p).1.contains x = true :=
  hp.rewired.contains_iff.mpr (.inr hx)

theorem contains_replaced (hr : r ∈ p.replacements) : a.contains r.1.node = true := by
  obtain ⟨-, old, -, hold, -⟩ := hp.accepted.replacements r hr
  exact contains_of_spec? hold

/-! ### What is read -/

theorem above_of_feeds (hv : a.Feeds nodes v) : TransGen a.Reads root v.node := by
  obtain ⟨u, hu, hv⟩ := hv
  exact .tail' (hp.reaches _ hu) (reads_of_producer? hv)

theorem uses_of_feeds (hv : a.Feeds nodes v) : a.uses v ≠ [] := by
  obtain ⟨u, -, hu⟩ := hv
  exact List.ne_nil_of_mem (hp.wellFormed.linked.mem_uses_iff.mpr hu)

theorem resolve_cases (ho : o.Within (a.Feeds nodes)) (hs : (p.spec? a o).isSome = true) :
    (o.resolve (a.rewire p).2).node ∈ (a.rewire p).2 ∨
      a.Feeds nodes (o.resolve (a.rewire p).2) := by
  cases o with
  | graph v => exact .inr ho
  | staged i port =>
    obtain ⟨s, hs⟩ := Option.isSome_iff_exists.mp hs
    obtain ⟨n, hn, -⟩ := Option.bind_eq_some_iff.mp hs
    have hlt : i < (a.rewire p).2.length :=
      hp.rewired.length ▸ (List.getElem?_eq_some_iff.mp hn).1
    rw [resolve_staged (List.getElem?_eq_getElem hlt)]
    exact .inl (List.getElem_mem hlt)

/-- Once the plan is in place, an input reads what it read before and what is not replaced, or else
a staged node, or what matched nodes read. -/
theorem producer?_cases (hu : (a.rewire p).1.producer? u = some v) :
    (u.node ∉ (a.rewire p).2 ∧ a.producer? u = some v ∧ ∀ r ∈ p.replacements, r.1 ≠ v) ∨
      v.node ∈ (a.rewire p).2 ∨ a.Feeds nodes v := by
  by_cases hnew : u.node ∈ (a.rewire p).2
  · obtain ⟨i, n, name, hn, -, hbare⟩ := hp.rewired.exists_staged hnew
    rw [producer?_eq_bare, hbare] at hu
    obtain ⟨o, ho, rfl⟩ := List.mem_map.mp (List.mem_of_getElem? hu)
    exact .inr (hp.resolve_cases (hp.confined.sketch.operands n (List.mem_of_getElem? hn) o ho)
      (hp.accepted.operands i n hn o ho).isSome_spec?)
  · rw [hp.rewired.producer?_old hnew] at hu
    obtain ⟨w, hw, rfl⟩ := Option.map_eq_some_iff.mp hu
    rcases redirectAll_cases (p.targets (a.rewire p).2) w with ⟨he, hne⟩ | ⟨-, t, ht, he⟩
    · rw [Plan.redirect, he]
      exact .inl ⟨hnew, hw, fun r hr => hne _ (List.mem_map_of_mem hr)⟩
    · obtain ⟨r, hr, rfl⟩ := List.mem_map.mp ht
      obtain ⟨-, -, new, -, hspec, -⟩ := hp.accepted.replacements r hr
      rw [Plan.redirect, he]
      exact .inr (hp.resolve_cases (hp.confined.replacements r hr).2
        (Option.isSome_of_eq_some hspec))

theorem uses_rewire (hlive : a.contains v.node = true) (hv : a.uses v = []) :
    (a.rewire p).1.uses v = [] := by
  refine List.eq_nil_iff_forall_not_mem.mpr fun u hu => ?_
  rcases hp.producer?_cases (hp.rewired.wellFormed.linked.mem_uses_iff.mp hu) with
    ⟨-, hold, -⟩ | hnew | hfeeds
  · exact List.ne_nil_of_mem (hp.wellFormed.linked.mem_uses_iff.mpr hold) hv
  · exact hp.rewired.fresh _ hnew hlive
  · exact hp.uses_of_feeds hfeeds hv

theorem uses_replaced (hr : r ∈ p.replacements) : (a.rewire p).1.uses r.1 = [] := by
  refine List.eq_nil_iff_forall_not_mem.mpr fun u hu => ?_
  rcases hp.producer?_cases (hp.rewired.wellFormed.linked.mem_uses_iff.mp hu) with
    ⟨-, -, hne⟩ | hnew | hfeeds
  · exact hne r hr rfl
  · exact hp.rewired.fresh _ hnew (hp.contains_replaced hr)
  · have habove := hp.above_of_feeds hfeeds
    rw [(hp.confined.replacements r hr).1] at habove
    exact hp.wellFormed.acyclic root habove

/-! ### What is released -/

theorem reaches_of_gone (hx : (a.rewire p).1.contains x = true)
    (hgone : ¬ (residue a nodes p).contains x = true) :
    x ∈ (a.rewire p).2 ∨ ReflTransGen a.Reads root x := by
  refine gone_residue hp.wellFormed hp.accepted
    (fun r hr => (hp.confined.replacements r hr).1 ▸ .refl) hp.reaches (fun x y hread hx hy => ?_)
    hx hgone
  obtain ⟨u, v, hu, rfl, rfl⟩ := mem_producers_iff.mp hread
  rcases hp.producer?_cases hu with ⟨hold, hu, -⟩ | hnew | hfeeds
  · exact .inl ((hy.resolve_left hold).tail (reads_of_producer? hu))
  · exact absurd hnew hx
  · exact .inl (hp.above_of_feeds hfeeds).to_reflTransGen

/-- What reads the root stays. -/
theorem contains_reader (hread : a.Reads y root) : (residue a nodes p).contains y = true := by
  have hy := contains_of_reads_left hread
  by_contra hgone
  rcases hp.reaches_of_gone (hp.contains_old hy) hgone with hmem | hreach
  · exact hp.rewired.fresh y hmem hy
  · exact hp.wellFormed.acyclic root (TransGen.tail' hreach hread)

theorem contains_of_pins (hx : a.contains x = true) (hpins : nodes.count x < a.pins x) :
    (residue a nodes p).contains x = true := by
  refine contains_unpinAll (hp.wellFormed.apply hp.accepted) ?_ ?_
  · exact hp.wellFormed.contains_apply hp.accepted hx (by omega)
  · rwa [hp.wellFormed.pins_apply hp.accepted]

/-- A root that nothing reads is gone if nothing else holds it. -/
theorem not_contains_root (hnodup : nodes.Nodup)
    (hheld : ∀ x ∈ nodes, a.contains x = true ∧ a.pins x ≠ 0) (hroot : root ∈ nodes)
    (hkind : ∃ kind, a.kind? root = some kind ∧ kind.isAnchor = false) (hpins : a.pins root = 1)
    (hunused : ∀ v, v.node = root → a.uses v = []) :
    ¬ (residue a nodes p).contains root = true := by
  have hpart : (a.rewire p).1.Part (a.apply p).1 :=
    (cascade_apply hp.wellFormed hp.accepted).part
  have hpins' : (a.apply p).1.pins = a.pins := hp.wellFormed.pins_apply hp.accepted
  have hlive : ∀ x ∈ nodes, (a.apply p).1.contains x = true := fun x hx =>
    hp.wellFormed.contains_apply hp.accepted (hheld x hx).1 (hheld x hx).2
  obtain ⟨h, k, e, -, -, hgone⟩ := unpinAll_eq hpart.wellFormed hnodup hlive fun x hx => by
    rw [hpins']
    exact (hheld x hx).2
  obtain rfl : residue a nodes p = h := congrArg Prod.fst e
  refine hgone root hroot (by rw [hpins', hpins]) (fun kind hk => ?_) fun v hv => ?_
  · obtain ⟨kind', hk', hanchor⟩ := hkind
    have hold := hp.rewired.kind?_old (hp.rewired.not_mem_of_contains (hheld root hroot).1)
    rw [hpart.kind? (hlive root hroot), hold] at hk
    exact Option.some.inj (hk.symm.trans hk') ▸ hanchor
  · refine hpart.uses_eq_nil hp.rewired.wellFormed.linked (hp.uses_rewire ?_ (hunused v hv))
    exact hv ▸ (hheld root hroot).1

/-! ### Plans for outputs that nothing reads -/

section Unread

variable (hunread : ∀ r ∈ p.replacements, a.uses r.1 = [])
include hunread

theorem not_contains_staged (hx : x ∈ (a.rewire p).2) :
    ¬ (residue a nodes p).contains x = true := by
  intro hlive
  obtain ⟨r, hr, hu⟩ := exists_used hp.wellFormed hp.accepted hp.confined.sketch hx hlive
  exact hu (hunread r hr)

theorem bare?_rewire (hx : x ∉ (a.rewire p).2) : (a.rewire p).1.bare? x = a.bare? x := by
  rw [hp.rewired.old x hx]
  cases hn : a.bare? x with
  | none => rfl
  | some n =>
    have hread (w : Value) (hw : w ∈ n.inputs) : p.redirect (a.rewire p).2 w = w := by
      refine redirectAll_eq_self fun t ht he => ?_
      obtain ⟨r, hr, rfl⟩ := List.mem_map.mp ht
      obtain ⟨port, hport⟩ := List.mem_iff_getElem?.mp hw
      have hproducer : a.producer? (x.input port) = some w := by
        rw [producer?_eq_bare]
        exact Option.bind_eq_some_iff.mpr ⟨n, hn, hport⟩
      have hmem := hp.wellFormed.linked.mem_uses_iff.mpr hproducer
      rw [← he, hunread r hr] at hmem
      exact absurd hmem List.not_mem_nil
    have hinputs : n.inputs.map (p.redirect (a.rewire p).2) = n.inputs :=
      (List.map_congr_left hread).trans (List.map_id n.inputs)
    rw [Option.map_some, hinputs]

theorem reads_residue (hy : (residue a nodes p).contains y = true) (hread : a.Reads y x) :
    (residue a nodes p).Reads y x := by
  have hold := hp.rewired.not_mem_of_contains (contains_of_reads_left hread)
  rwa [Reads, producers_eq_bare, hp.cascade.part.bare y hy, hp.bare?_rewire hunread hold,
    ← producers_eq_bare]

theorem contains_root_of_uses (hv : v.node = root) (hu : a.uses v ≠ []) :
    (residue a nodes p).contains root = true := by
  obtain ⟨u, hu⟩ := List.exists_mem_of_ne_nil _ hu
  have hread := reads_of_producer? (hp.wellFormed.linked.mem_uses_iff.mp hu)
  rw [hv] at hread
  exact hp.cascade.part.wellFormed.linked.contains_of_reads
    (hp.reads_residue hunread (hp.contains_reader hread) hread)

theorem contains_residue (hroot : (residue a nodes p).contains root = true)
    (hx : a.contains x = true) : (residue a nodes p).contains x = true := by
  -- what the root depends on stays with it
  have hbelow (y : NodeId) (hy : ReflTransGen a.Reads root y) :
      (residue a nodes p).contains y = true := by
    induction hy with
    | refl => exact hroot
    | tail _ hread ih =>
      exact hp.cascade.part.wellFormed.linked.contains_of_reads
        (hp.reads_residue hunread ih hread)
  by_contra hgone
  rcases hp.reaches_of_gone (hp.contains_old hx) hgone with hmem | hreach
  · exact hp.rewired.fresh x hmem hx
  · exact hgone (hbelow x hreach)

theorem bare?_residue (hroot : (residue a nodes p).contains root = true) :
    (residue a nodes p).bare? = a.bare? := by
  funext x
  by_cases hx : a.contains x = true
  · rw [hp.cascade.part.bare x (hp.contains_residue hunread hroot hx),
      hp.bare?_rewire hunread (hp.rewired.not_mem_of_contains hx)]
  · have hgone : ¬ (residue a nodes p).contains x = true := by
      intro hlive
      rcases hp.rewired.contains_iff.mp (hp.cascade.part.contains hlive) with hmem | hold
      · exact hp.not_contains_staged hunread hmem hlive
      · exact hx hold
    simp only [contains_eq_bare, Option.not_isSome_iff_eq_none] at hx hgone
    rw [hx, hgone]

end Unread

end Local

end TensorGraph
