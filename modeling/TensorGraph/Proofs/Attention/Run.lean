import TensorGraph.Proofs.Attention.Remainder
import TensorGraph.Proofs.Meaning.Attention

/-! # Runs of the attention pass

A run fuses islands one after the other. The chosen ones share no node, so each still fits when
its turn comes, and on a graph in which every recorded spec is the one that inference gives no step
of a run can fail.
-/

namespace TensorGraph.Attention

variable {g h : Graph} {c : Config} {r : Ranking} {i : Island} {is fused : List Island}
variable {b : Boundary} {p : Plan Body} {n : StagedNode Body} {o : Outcome} {x : NodeId}

/-! ### Chosen islands share no node -/

theorem meets_eq_false_iff {x y : Candidate} :
    x.meets y = false ↔ ∀ z ∈ x.island.nodes, z ∉ y.island.nodes := by
  simp [Candidate.meets]

theorem pairwise_choose (rest chosen : List Candidate) :
    (choose chosen rest).chosen.Pairwise (fun x y => y.meets x = false) ∧
      ∀ x ∈ (choose chosen rest).chosen, ∀ y ∈ chosen, x.meets y = false := by
  induction rest generalizing chosen with
  | nil => exact ⟨.nil, fun x hx => absurd hx List.not_mem_nil⟩
  | cons x rest ih =>
    unfold choose
    split
    · exact ih chosen
    · rename_i hx
      obtain ⟨hpairwise, hearlier⟩ := ih (x :: chosen)
      constructor
      · apply List.pairwise_cons.mpr
        exact ⟨fun y hy => hearlier y hy x List.mem_cons_self, hpairwise⟩
      · intro y hy z hz
        rcases List.mem_cons.mp hy with rfl | hy
        · simpa using fun hmeets => hx (List.any_eq_true.mpr ⟨z, hz, hmeets⟩)
        · exact hearlier y hy z (List.mem_cons_of_mem _ hz)

/-- No island of the list has a node of one before it. -/
def Apart (is : List Island) : Prop := is.Pairwise fun i j => ∀ x ∈ j.nodes, x ∉ i.nodes

theorem apart_select (islands : List Island) (r : Ranking) :
    Apart ((select islands r).chosen.map Candidate.island) := by
  apply List.pairwise_map.mpr
  apply (pairwise_choose (candidates islands r) []).1.imp
  intro x y hmeets
  exact meets_eq_false_iff.mp hmeets

/-! ### One fusion after the other -/

def fusedAmong (c : Config) : List Island → Ranking → Graph → List Island
  | [], _, _ => []
  | i :: rest, r, g =>
    match r.refresh g with
    | .error _ => []
    | .ok r =>
      if i.isLive g && i.isConvex g r then
        match fusePermitted c g i with
        | .error _ => []
        | .ok none => fusedAmong c rest r g
        | .ok (some (g, _)) => i :: fusedAmong c rest r g
      else fusedAmong c rest r g

def fusedBy (c : Config) (g : Graph) : List Island :=
  match Ranking.compute g with
  | .error _ => []
  | .ok r => fusedAmong c ((select (discover c r g).1 r).chosen.map Candidate.island) r g

theorem fusedAmong_sublist : (fusedAmong c is r g).Sublist is := by
  induction is generalizing r g with
  | nil => exact .slnil
  | cons i is ih =>
    unfold fusedAmong
    split
    · exact List.nil_sublist _
    · split
      · split
        · exact List.nil_sublist _
        · exact ih.cons i
        · exact ih.cons_cons i
      · exact ih.cons i

/-- Islands fused one after the other. At every fusion those that are still to be fused fit, and
they share no node with the one that is fused. -/
inductive Fuses : Graph → List Island → Graph → Prop
  | done (g : Graph) : Fuses g [] g
  | fuse {g h : Graph} {i : Island} {fused : List Island} {b : Boundary} {n : StagedNode Body}
      {p : Plan Body} (first : i.Fusion g b n p)
      (later : ∀ j ∈ fused, j.Fits g ∧ ∀ x ∈ j.nodes, x ∉ i.nodes)
      (rest : Fuses (g.apply p).1 fused h) : Fuses g (i :: fused) h

theorem Island.Fusion.fusePermitted (hf : i.Fusion g b n p) (hplan : i.replacement g b = .ok p)
    (c : Config) : fusePermitted c g i =
      .ok (if i.permits c b then some (g.apply p) else none) := by
  unfold Attention.fusePermitted
  apply bind_eq_ok_iff.mpr ⟨b, hf.boundary, ?_⟩
  split
  · have hcommit : i.fuse g b = .ok (g.apply p) :=
      bind_eq_ok_iff.mpr ⟨p, hplan, Arena.commit_eq_ok_iff.mpr ⟨hf.accepted, rfl⟩⟩
    rw [hcommit]
    rfl
  · rfl

theorem fuseAll_eq_ok (hg : g.WellFormed) (ht : g.table = .standard) (hi : g.Inferred)
    (hr : r.Honest g) (hfits : ∀ i ∈ is, i.Fits g) (hapart : Apart is) :
    ∃ h o', fuseAll c is r g o = (h, .ok o') ∧ Fuses g (fusedAmong c is r g) h ∧
      o'.rewritten = o.rewritten + (fusedAmong c is r g).length ∧
      (o'.changed = true ↔ o.changed = true ∨ fusedAmong c is r g ≠ []) := by
  induction is generalizing r g o with
  | nil => exact ⟨g, o, rfl, .done g, rfl, by simp [fusedAmong]⟩
  | cons i is ih =>
    obtain ⟨hfit, hfits⟩ := List.forall_mem_cons.mp hfits
    obtain ⟨hdisjoint, hapart⟩ := List.pairwise_cons.mp hapart
    obtain ⟨r', hr', hranks, hversion⟩ := hr.refresh hg
    have hskip := fun o => ih (o := o) hg ht hi (fun _ => hranks) hfits hapart
    unfold fuseAll fusedAmong
    rw [hr']
    dsimp only
    split
    · rename_i hlive
      obtain ⟨b, n, p, hplan, hf⟩ :=
        Island.exists_fusion hg ht hi hfit hranks (Bool.and_eq_true_iff.mp hlive).2
      rw [hf.fusePermitted hplan]
      by_cases hpermit : i.permits c b = true
      · have hp := hf.accepted
        have hstale : r'.version < (g.apply p).1.version :=
          hversion ▸ Arena.version_lt_apply g p
        have hlater (j : Island) (hj : j ∈ is) : j.Fits g ∧ ∀ x ∈ j.nodes, x ∉ i.nodes :=
          ⟨hfits j hj, hdisjoint j hj⟩
        obtain ⟨h, o', e, hfuses, hrewritten, hchanged⟩ :=
          ih (o := Attention.fused o (g.apply p).2) (hg.apply hp)
            ((Arena.table_apply hg hp).trans ht) (hi.apply hg hp hf.keepsSpecs)
            (Ranking.honest_of_version_lt hstale)
            (fun j hj => hf.fits_apply (hlater j hj).1 (hlater j hj).2) hapart
        rw [if_pos hpermit]
        refine ⟨h, o', e, .fuse hf (fun j hj => hlater j (fusedAmong_sublist.subset hj)) hfuses,
          ?_, ?_⟩
        · simp [hrewritten, Attention.fused]
          omega
        · simp [hchanged, Attention.fused]
      · rw [if_neg hpermit]
        exact hskip o
    · exact hskip o

theorem run_eq_ok (c : Config) (hg : g.WellFormed) (ht : g.table = .standard)
    (hi : g.Inferred) : ∃ h o, run c g = (h, .ok o) ∧ Fuses g (fusedBy c g) h ∧
      o.rewritten = (fusedBy c g).length ∧ (o.changed = true ↔ fusedBy c g ≠ []) := by
  obtain ⟨r, hr, hranks, -⟩ := Ranking.compute_eq_ok hg
  unfold run fusedBy
  rw [hr]
  have hfits : ∀ i ∈ (select (discover c r g).1 r).chosen.map Candidate.island, i.Fits g :=
    fun i hmem => fits_of_mem_discover hranks (mem_of_mem_select hmem)
  obtain ⟨h, o, e, hfuses, hrewritten, hchanged⟩ :=
    fuseAll_eq_ok (c := c) (o := { Outcome.none with matched := (discover c r g).2 })
      hg ht hi (fun _ => hranks) hfits (apart_select _ _)
  exact ⟨h, o, e, hfuses, by simpa [Outcome.none] using hrewritten,
    by simpa [Outcome.none] using hchanged⟩

/-! ### What a run keeps -/

section Kept

variable {k : Kind} {u : Use} {v : Value}

namespace Island.Fusion

/-- Besides the new subgraph a fusion leaves nodes that were there before. -/
theorem kind?_of_apply (hf : i.Fusion g b n p) (hx : (g.apply p).1.kind? x = some k)
    (hk : k ≠ .subgraph) : g.kind? x = some k := by
  obtain ⟨s, hs⟩ := hf.exists_handle
  have hr := hf.rewired hs
  have hlive := Arena.contains_of_kind? hx
  have hne : x ≠ s := by
    rintro rfl
    obtain ⟨m', hm', hkind, -⟩ := hf.bare?_handle hs
    rw [Arena.kind?_eq_bare, (Arena.remains_apply hf.wellFormed hf.accepted).bare x hlive,
      hm'] at hx
    exact hk (Option.some.inj hx ▸ hkind)
  have hold : g.contains x = true := by
    have hwired : (g.rewire p).1.contains x = true := by
      rw [Arena.contains_eq_bare,
        ← (Arena.remains_apply hf.wellFormed hf.accepted).bare x hlive, ← Arena.contains_eq_bare]
      exact hlive
    exact (hr.contains_iff.mp hwired).resolve_left (mt List.mem_singleton.mp hne)
  rw [← Arena.kind?_apply hf.wellFormed hf.accepted hold hlive]
  exact hx

theorem exists_producer (hf : i.Fusion g b n p) (hu : (g.apply p).1.producer? u = some v)
    (hk : (g.apply p).1.kind? u.node = some k) (hne : k ≠ .subgraph) :
    ∃ w, g.producer? u = some w ∧ (g.apply p).1.spec? v = g.spec? w := by
  have hg := hf.wellFormed
  have hr := Arena.rewired_rewire hg hf.accepted
  have hremains := Arena.remains_apply hg hf.accepted
  have hold := Arena.contains_of_kind? (hf.kind?_of_apply hk hne)
  have hwired : (g.rewire p).1.producer? u = some v := by
    rw [← hu, Arena.producer?_eq_bare, Arena.producer?_eq_bare,
      hremains.bare u.node (Arena.contains_of_kind? hk)]
  rw [hr.producer?_old (hr.not_mem_of_contains hold)] at hwired
  obtain ⟨w, hw, rfl⟩ := Option.map_eq_some_iff.mp hwired
  refine ⟨w, hw, ?_⟩
  have hout := (hg.apply hf.accepted).linked.hasOutput hu
  rw [Arena.spec?_of_part hremains.bare (Arena.contains_of_hasOutput hout)]
  have hread := Arena.contains_of_hasOutput (hg.linked.hasOutput hw)
  exact hr.spec?_redirect hf.accepted hf.keepsSpecs hread

/-- A subgraph that was there before is no node of the island and no constant: it stays. -/
theorem keeps_subgraph (hf : i.Fusion g b n p) (hx : g.kind? x = some .subgraph) :
    (g.apply p).1.kind? x = some .subgraph ∧
      ∀ port, (g.apply p).1.spec? (x.output port) = g.spec? (x.output port) := by
  have hlive := Arena.contains_of_kind? hx
  have hkeep : (g.apply p).1.contains x = true := by
    apply hf.contains_apply hlive
    rintro (hmem | ⟨hmem, -⟩)
    · obtain ⟨k, hk, hmember⟩ := hf.fits.members x hmem
      obtain rfl := Option.some.inj (hx.symm.trans hk)
      exact absurd hmember (by decide)
    · cases hx.symm.trans (hf.fits.constants x hmem).1
  rw [Arena.kind?_apply hf.wellFormed hf.accepted hlive hkeep]
  exact ⟨hx, fun _ => Arena.spec?_apply hf.wellFormed hf.accepted hlive hkeep⟩

section Handle

variable {s : NodeId} {port : Nat}
variable (hf : i.Fusion g b n p) (hs : (g.rewire p).2 = [s])
include hf hs

theorem kind?_handle (ho : b.outputs ≠ []) : (g.apply p).1.kind? s = some .subgraph := by
  obtain ⟨m, hm, hkind, -⟩ := hf.bare?_handle hs
  rw [Arena.kind?_eq_bare,
    (Arena.remains_apply hf.wellFormed hf.accepted).bare s (hf.contains_handle hs ho), hm]
  exact congrArg some hkind

theorem spec?_handle (hv : b.outputs[port]? = some v) :
    (g.apply p).1.spec? (s.output port) = g.spec? v := by
  have ho := List.ne_nil_of_mem (List.mem_of_getElem? hv)
  rw [Arena.spec?_of_part (Arena.remains_apply hf.wellFormed hf.accepted).bare
    (hf.contains_handle hs ho)]
  have hout := hasOutput_of_mem_outputs hf.boundary (List.mem_of_getElem? hv)
  obtain ⟨spec, hspec⟩ := Option.isSome_iff_exists.mp (Arena.hasOutput_eq_spec?.symm.trans hout)
  have hnew : p.spec? g (.staged 0 port) = some spec := by
    rw [hf.spec?_staged, hf.spec?_output hv, hspec]
  rw [hspec]
  exact (hf.rewired hs).spec?_resolve hnew

theorem producer?_handle (hu : g.producer? u = some v) (hv : v ∈ b.outputs)
    (hout : u.node ∉ i.nodes) : ∃ port, b.outputs[port]? = some v ∧
      (g.apply p).1.producer? u = some (s.output port) := by
  have hg := hf.wellFormed
  have hread : g.Reads u.node v.node := Arena.mem_producers_iff.mpr ⟨u, v, hu, rfl, rfl⟩
  have hlive := Arena.contains_of_reads_left hread
  have hkeep := hf.contains_apply hlive (hf.not_own hout hread)
  obtain ⟨port, hport, hredirect⟩ := hf.redirect_eq_output hs hv
  refine ⟨port, hport, ?_⟩
  rw [Arena.producer?_eq_bare, (Arena.remains_apply hg hf.accepted).bare u.node hkeep,
    ← Arena.producer?_eq_bare, (hf.rewired hs).producer?_old
      ((hf.rewired hs).not_mem_of_contains hlive), hu]
  exact congrArg some hredirect

end Handle

end Island.Fusion

/-- The turn of an island among the fusions that lead from `g` to `h`: it is fused in `a`, and the
subgraph `s` takes its place. -/
structure Turn (g h : Graph) (before : List Island) (i : Island) (after : List Island) (a : Graph)
    (b : Boundary) (n : StagedNode Body) (p : Plan Body) (s : NodeId) : Prop where
  earlier : Fuses g before a
  fusion : i.Fusion a b n p
  handle : (a.rewire p).2 = [s]
  later : Fuses (a.apply p).1 after h

namespace Fuses

theorem keeps_subgraph (hfuses : Fuses g fused h) (hx : g.kind? x = some .subgraph) :
    h.kind? x = some .subgraph ∧ ∀ port, h.spec? (x.output port) = g.spec? (x.output port) := by
  induction hfuses with
  | done g => exact ⟨hx, fun _ => rfl⟩
  | fuse first later rest ih =>
    obtain ⟨hkind, hspec⟩ := first.keeps_subgraph hx
    obtain ⟨hkind', hspec'⟩ := ih hkind
    exact ⟨hkind', fun port => (hspec' port).trans (hspec port)⟩

theorem exists_turn {before after : List Island} (hfuses : Fuses g (before ++ i :: after) h) :
    ∃ a b n p s, Turn g h before i after a b n p s ∧ ∀ port v, b.outputs[port]? = some v →
      h.kind? s = some .subgraph ∧ h.spec? (s.output port) = g.spec? v := by
  induction before generalizing g with
  | nil =>
    cases hfuses with
    | @fuse _ _ _ _ b n p first later rest =>
      obtain ⟨s, hs⟩ := first.exists_handle
      refine ⟨g, b, n, p, s, ⟨.done g, first, hs, rest⟩, fun port v hv => ?_⟩
      have ho := List.ne_nil_of_mem (List.mem_of_getElem? hv)
      obtain ⟨hkind, hspec⟩ := rest.keeps_subgraph (first.kind?_handle hs ho)
      exact ⟨hkind, (hspec port).trans (first.spec?_handle hs hv)⟩
  | cons j before ih =>
    cases hfuses with
    | fuse first later rest =>
      obtain ⟨a, b, n, p, s, turn, hspecs⟩ := ih rest
      have hearlier : Fuses g (j :: before) a :=
        .fuse first (fun k hk => later k (List.mem_append_left _ hk)) turn.earlier
      refine ⟨a, b, n, p, s, { turn with earlier := hearlier }, fun port v hv => ?_⟩
      obtain ⟨hkind, hspec⟩ := hspecs port v hv
      refine ⟨hkind, hspec.trans ?_⟩
      have hnode := ((Island.mem_outputs_iff turn.fusion.boundary).mp (List.mem_of_getElem? hv)).1
      obtain ⟨hfits, hdisjoint⟩ := later i (List.mem_append_right _ List.mem_cons_self)
      have hlive := hfits.contains (List.mem_append_left _ hnode)
      have hkeep := (first.fits_apply hfits hdisjoint).contains (List.mem_append_left _ hnode)
      exact Arena.spec?_apply first.wellFormed first.accepted hlive hkeep

theorem consistent (hfuses : Fuses g fused h) (hg : g.WellFormed) (ht : g.table = .standard)
    (hi : g.Inferred) : h.WellFormed ∧ h.table = .standard ∧ h.Inferred ∧
      h.resultSpecs = g.resultSpecs := by
  induction hfuses with
  | done g => exact ⟨hg, ht, hi, rfl⟩
  | fuse first later rest ih =>
    have hp := first.accepted
    have hspecs := Arena.resultSpecs_apply hg hp first.keepsSpecs
    rw [← hspecs]
    exact ih (hg.apply hp) ((Arena.table_apply hg hp).trans ht) (hi.apply hg hp first.keepsSpecs)

theorem kind?_eq (hfuses : Fuses g fused h) (hx : h.kind? x = some k) (hk : k ≠ .subgraph) :
    g.kind? x = some k := by
  induction hfuses with
  | done g => exact hx
  | fuse first later rest ih => exact first.kind?_of_apply (ih hx) hk

theorem exists_producer (hfuses : Fuses g fused h) (hu : h.producer? u = some v)
    (hk : h.kind? u.node = some k) (hne : k ≠ .subgraph) :
    ∃ w, g.producer? u = some w ∧ h.spec? v = g.spec? w := by
  induction hfuses with
  | done g => exact ⟨v, hu, rfl⟩
  | fuse first later rest ih =>
    obtain ⟨w, hw, hspec⟩ := ih hu hk
    obtain ⟨w', hw', hspec'⟩ := first.exists_producer hw (rest.kind?_eq hk hne) hne
    exact ⟨w', hw', hspec.trans hspec'⟩

end Fuses

end Kept

theorem inferred_plainAttention : plainAttention.Inferred := by
  apply Arena.inferred_of_nodeIds
  have hids : plainAttention.nodeIds =
      [⟨0, 0⟩, ⟨1, 0⟩, ⟨2, 0⟩, ⟨3, 0⟩, ⟨4, 0⟩, ⟨5, 0⟩, ⟨6, 0⟩] := by rfl
  rw [hids]
  simp only [List.forall_mem_cons, List.not_mem_nil, false_implies, implies_true, and_true]
  refine ⟨?_, ?_, ?_, ?_, ?_, ?_, ?_⟩ <;> rfl

/-- On a graph in which every recorded spec is the one that inference gives, the attention pass
ends without a failure. The recorded specs still are those that inference gives, the results
receive values of the same specs, and whatever an old node reads has the spec it had before. Every
output of an inserted subgraph has the spec of the value that it replaces, whoever reads it. -/
theorem run_succeeds (c : Config) (hg : g.WellFormed) (ht : g.table = .standard)
    (hi : g.Inferred) : ∃ h o, run c g = (h, .ok o) ∧ h.validate = .ok () ∧
      h.table = .standard ∧ h.Inferred ∧ h.resultSpecs = g.resultSpecs ∧
      (∀ u v k, h.producer? u = some v → h.kind? u.node = some k → k ≠ .subgraph →
        ∃ w, g.producer? u = some w ∧ h.spec? v = g.spec? w) ∧
      ∀ before i after, fusedBy c g = before ++ i :: after →
        ∃ a b n p s, Turn g h before i after a b n p s ∧
          (∀ port v, b.outputs[port]? = some v →
            h.kind? s = some .subgraph ∧ h.spec? (s.output port) = g.spec? v) ∧
          ∀ u v, a.producer? u = some v → v ∈ b.outputs → u.node ∉ i.nodes →
            ∃ port, b.outputs[port]? = some v ∧
              (a.apply p).1.producer? u = some (s.output port) := by
  obtain ⟨h, o, e, hfuses, -⟩ := run_eq_ok c hg ht hi
  obtain ⟨hh, htable, hinferred, hspecs⟩ := hfuses.consistent hg ht hi
  refine ⟨h, o, e, hh.validate, htable, hinferred, hspecs, fun u v k => hfuses.exists_producer,
    fun before i after hfused => ?_⟩
  obtain ⟨a, b, n, p, s, turn, houtputs⟩ := Fuses.exists_turn (hfused ▸ hfuses)
  exact ⟨a, b, n, p, s, turn, houtputs, fun u v => turn.fusion.producer?_handle turn.handle⟩

theorem run_succeeds_plainAttention : plainAttention.WellFormed ∧
    plainAttention.table = .standard ∧ plainAttention.Inferred ∧
    ∃ h o, run .standard plainAttention = (h, .ok o) ∧ h.validate = .ok () ∧
      h.resultSpecs = [⟨.f32, .ofSizes [2, 4]⟩] ∧ o.rewritten = 1 := by
  have hg : plainAttention.WellFormed := Arena.wellFormed_reached _ _
  have ht : plainAttention.table = .standard := by rfl
  have hi := inferred_plainAttention
  obtain ⟨h, o, e, hvalid, -, -, hspecs, -, -⟩ := run_succeeds .standard hg ht hi
  have hrewritten : (run .standard plainAttention).2.toOption.map Outcome.rewritten = some 1 := by
    cbv
  have hresults : plainAttention.resultSpecs = [⟨.f32, .ofSizes [2, 4]⟩] := by cbv
  refine ⟨hg, ht, hi, h, o, e, hvalid, hspecs.trans hresults, ?_⟩
  rw [e] at hrewritten
  exact Option.some.inj hrewritten

end TensorGraph.Attention
