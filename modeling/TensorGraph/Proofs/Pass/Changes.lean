import TensorGraph.Proofs.Pass.Confinement
import TensorGraph.Proofs.Pass.Declining
import TensorGraph.Proofs.Rewrite.Generations

/-! # Real changes

A run says that it changed the graph if it committed a rewrite. Whether anything came of the commit
is another matter: a root that is held from outside stays, and if no output that was replaced is
read, then so does everything else. Which visits tell is read off the graph before their commit.
-/

namespace TensorGraph

open Relation Arena

namespace Arena

variable {β : Type} {a b c : Arena β} {k l : Nat}

/-- A node is gone, a node is new, or an input of a node that stayed reads something else. -/
def Differs (a b : Arena β) : Prop :=
  (∃ x, a.contains x = true ∧ ¬ b.contains x = true) ∨
    (∃ x, b.contains x = true ∧ ¬ a.contains x = true) ∨
    ∃ u : Use, a.contains u.node = true ∧ b.contains u.node = true ∧ b.producer? u ≠ a.producer? u

/-- A node is gone, or a value that was read is not read any more. -/
def Loses (a b : Arena β) : Prop :=
  (∃ x, a.contains x = true ∧ ¬ b.contains x = true) ∨
    ∃ u v, a.producer? u = some v ∧ b.uses v = []

theorem Loses.differs (h : a.Loses b) (hb : b.Linked) : a.Differs b := by
  rcases h with hgone | ⟨u, v, hu, hv⟩
  · exact .inl hgone
  have hold := contains_of_reads_left (reads_of_producer? hu)
  by_cases hlive : b.contains u.node = true
  · refine .inr (.inr ⟨u, hold, hlive, fun he => ?_⟩)
    have hmem := hb.mem_uses_iff.mpr (he.trans hu)
    rw [hv] at hmem
    exact absurd hmem List.not_mem_nil
  · exact .inl ⟨u.node, hold, hlive⟩

theorem not_differs_of_bare (h : b.bare? = a.bare?) : ¬ a.Differs b := by
  rintro (⟨x, hx, hgone⟩ | ⟨x, hx, hnew⟩ | ⟨u, -, -, hne⟩)
  · exact hgone (contains_congr h ▸ hx)
  · exact hnew (contains_congr h ▸ hx)
  · exact hne (congrFun (producer?_congr h) u)

theorem Loses.of_bare (h : b.bare? = a.bare?) (hl : b.Loses c) : a.Loses c := by
  rw [Loses, contains_congr h, producer?_congr h] at hl
  exact hl

/-- What was lost stays lost, as long as nothing that was not read is read again. -/
theorem Loses.trans (h : a.Loses b) (ha : a.Linked) (hages : a.Ages k b) (hages' : b.Ages l c)
    (hlt : k + l < UInt32.size)
    (hunread : ∀ v, b.contains v.node = true → b.uses v = [] → c.uses v = []) : a.Loses c := by
  rcases h with ⟨x, hx, hgone⟩ | ⟨u, v, hu, hv⟩
  · exact .inl ⟨x, hx, hages.not_contains hages' hlt hx hgone⟩
  · have hold := ha.contains_of_reads (reads_of_producer? hu)
    by_cases hlive : b.contains v.node = true
    · exact .inr ⟨u, v, hu, hunread v hlive hv⟩
    · exact .inl ⟨v.node, hold, hages.not_contains hages' hlt hold hlive⟩

end Arena

namespace PatternPass

variable {p : PatternPass} {g h i : Graph} {root : NodeId} {m : Match} {o o' : Outcome}
variable {ids roots : List NodeId}

/-! ### Visits -/

def Visit.Commits (p : PatternPass) (u : Visit) : Prop :=
  ∃ plan, p.rewrite u.graph u.found = .ok plan ∧ plan.isEmpty = false

/-- Nothing reads the root and no pin but that of the visit holds it, or an output that the rewrite
replaces is read. -/
def Visit.Tells (p : PatternPass) (u : Visit) : Prop :=
  (u.graph.pins u.root = 1 ∧ ∀ v, v.node = u.root → u.graph.uses v = []) ∨
    ∃ plan, p.rewrite u.graph u.found = .ok plan ∧ ∃ r ∈ plan.replacements, u.graph.uses r.1 ≠ []

theorem ages_pinned : g.Ages 0 (g.pinned ids) := by
  unfold Arena.pinned
  induction ids generalizing g with
  | nil => exact .refl g
  | cons id ids ih =>
    have hfirst : g.Ages 0 (g.modifyPins id.index (· + 1)) :=
      KeepsGenerations.ages (fun i gen hi => (generation?_modifyPins i _ _).trans hi)
        fun x hx => by rwa [contains_modifyPins]
    exact hfirst.trans ih

theorem ages_unpinAll (g : Graph) (ids : List NodeId) :
    g.Ages (unpinAll g ids).2.1 (unpinAll g ids).1 := by
  induction ids generalizing g with
  | nil => exact .refl g
  | cons id ids ih =>
    cases e : g.unpin id with
    | error f =>
      rw [unpinAll_cons_error e]
      exact ih g
    | ok done =>
      obtain ⟨h, k⟩ := done
      rw [unpinAll_cons_ok e]
      obtain ⟨-, he⟩ := unpin_eq_ok_iff.mp e
      have hmodify : g.Ages 0 (g.modifyPins id.index dropPin) :=
        KeepsGenerations.ages (fun i gen hi => (generation?_modifyPins i _ _).trans hi)
          fun x hx => by rwa [contains_modifyPins]
      have hfirst := hmodify.trans (releases_release _ id).ages
      rw [← he, Nat.zero_add] at hfirst
      exact hfirst.trans (ih h)

theorem visitMatch_cases (hg : g.WellFormed) (e : p.visitMatch g root m = (h, .ok o)) :
    (o.changed = false ∧ p.Declines (g.pinned m.nodes) m) ∨
    o.changed = true ∧ ∃ plan, p.rewrite (g.pinned m.nodes) m = .ok plan ∧
      plan.isEmpty = false ∧ plan.Accepted (g.pinned m.nodes) ∧
      h = residue (g.pinned m.nodes) m.nodes plan ∧
      o.released = (unpinAll ((g.pinned m.nodes).apply plan).1 m.nodes).2.1 +
        ((g.pinned m.nodes).apply plan).2.released := by
  have hpinnable := pinnable_of_visitMatch e
  have hpin : pinAll g m.nodes = .ok (g.pinned m.nodes) :=
    (pinAll_eq_ok_iff m.nodup_nodes).mpr ⟨hpinnable, rfl⟩
  rcases p.commitMatch_cases (g.pinned m.nodes) m with
    ⟨plan, hplan, hempty, hp, hc⟩ | ⟨-, hd⟩ | ⟨f, hc⟩
  · rcases hu : unpinAll ((g.pinned m.nodes).apply plan).1 m.nodes with ⟨i, k, _ | f⟩
    · simp only [visitMatch, hpin, hc, hu] at e
      obtain ⟨rfl, he⟩ := Prod.mk.inj e
      obtain rfl := Except.ok.inj he
      refine .inr ⟨rfl, plan, hplan, hempty, hp, (congrArg Prod.fst hu).symm, ?_⟩
      rw [hu]
    · simp only [visitMatch, hpin, hc, hu] at e
      cases (Prod.mk.inj e).2
  · obtain ⟨h', k, e', -⟩ := visitMatch_declined root hg hpinnable hd
    obtain rfl := Except.ok.inj (Prod.mk.inj (e.symm.trans e')).2
    exact .inl ⟨rfl, hd⟩
  · cases f <;> (simp only [visitMatch, hpin, hc] at e; cases (Prod.mk.inj e).2)

/-- What a visit does to what can be told of a graph. -/
structure Visited (p : PatternPass) (g : Graph) (u : Visit) (h : Graph) (o : Outcome) : Prop where
  wellFormed : h.WellFormed
  ages : g.Ages o.released h
  changed : o.changed = true ↔ u.Commits p
  unread : ∀ v, g.contains v.node = true → g.uses v = [] → h.uses v = []
  told : u.Tells p → g.Loses h
  untold : ¬ u.Tells p → h.bare? = g.bare?

theorem held_pinned (hpin : g.Pinnable m.nodes) : ∀ x ∈ m.nodes,
    (g.pinned m.nodes).contains x = true ∧ (g.pinned m.nodes).pins x ≠ 0 := by
  intro x hx
  rw [contains_pinned, pins_pinned m.nodup_nodes hpin, if_pos hx]
  exact ⟨hpin.contains x hx, Nat.succ_ne_zero _⟩

section Matched

variable (hg : g.WellFormed) (hp : p.IsLocal) (hm : p.matchAt? g root = some m)
include hp hm

theorem exists_kind_root : ∃ kind, g.kind? root = some kind ∧ kind.isAnchor = false := by
  have hmatch := matchNode_of_matchAt? hm
  exact p.pattern.kind?_of_mem_nodes hp.wraps hmatch (hp.reaches g root m hmatch).1

theorem pins_root (hpin : g.Pinnable m.nodes) :
    (g.pinned m.nodes).pins root = g.pins root + 1 := by
  rw [pins_pinned m.nodup_nodes hpin,
    if_pos (hp.reaches g root m (matchNode_of_matchAt? hm)).1]

include hg

theorem visited_of_declines (hd : p.Declines (g.pinned m.nodes) m)
    (e : p.visitMatch g root m = (h, .ok o)) :
    Visited p g ⟨root, m, g⟩ h o := by
  have hpin := pinnable_of_visitMatch e
  obtain ⟨hroot, hreaches⟩ := hp.reaches g root m (matchNode_of_matchAt? hm)
  obtain ⟨h', k, e', hdeclined⟩ := visitMatch_declined root hg hpin hd
  obtain ⟨rfl, he⟩ := Prod.mk.inj (e.symm.trans e')
  obtain rfl := Except.ok.inj he
  have huses : (g.pinned m.nodes).uses = g.uses := uses_of_node? node?_pinned
  have hages := ages_pinned.trans (ages_unpinAll (g.pinned m.nodes) m.nodes)
  rw [(visitMatch_unchanged e rfl).2.2, Nat.zero_add] at hages
  refine ⟨hdeclined.part.wellFormed, hages, ⟨nofun, ?_⟩, fun v _ => ?_, ?_, fun hnot => ?_⟩
  · rintro ⟨plan, hplan, hempty⟩
    cases hempty.symm.trans (hd.isEmpty hplan)
  · exact hdeclined.part.uses_eq_nil hg.linked
  · rintro (⟨hone, hunused⟩ | ⟨plan, hplan, r, hr, -⟩)
    · have hdead : g.Dead root := ⟨exists_kind_root hp hm,
        Nat.succ.inj ((pins_root hp hm hpin).symm.trans hone), huses ▸ hunused⟩
      exact .inl ⟨root, hpin.contains root hroot,
        hdeclined.gone m (List.mem_singleton_self m) root hroot hdead⟩
    · rw [List.isEmpty_iff.mp (hd.isEmpty hplan)] at hr
      exact absurd hr List.not_mem_nil
  · suffices hsame : h = g by rw [hsame]
    refine hdeclined.same (List.forall_mem_singleton.mpr fun x hx hdead => ?_)
    rcases reflTransGen_iff_eq_or_transGen.mp (hreaches x hx) with rfl | habove
    · refine hnot (.inl ⟨?_, huses.symm ▸ hdead.unused⟩)
      exact (pins_root hp hm hpin).trans (congrArg (· + 1) hdead.pins)
    · -- a node below the root is read
      obtain ⟨y, -, hread⟩ := TransGen.tail'_iff.mp habove
      obtain ⟨u, v, hu, -, hv⟩ := mem_producers_iff.mp hread
      have hmem := hg.linked.mem_uses_iff.mpr hu
      rw [hdead.unused v hv] at hmem
      exact absurd hmem List.not_mem_nil

theorem local_of_rewrite {plan : Plan Body} (hplan : p.rewrite (g.pinned m.nodes) m = .ok plan)
    (hacc : plan.Accepted (g.pinned m.nodes)) : Local (g.pinned m.nodes) root m.nodes plan := by
  have hmatch := matchNode_of_matchAt? hm
  refine ⟨hg.pinned (contains_of_matchAt? hm), hacc, ?_, ?_⟩
  · rw [reads_congr bare?_pinned]
    exact (hp.reaches g root m hmatch).2
  · rw [feeds_congr bare?_pinned]
    exact hp.confined _ g root m plan node?_pinned hmatch hplan

theorem visited_of_commit {plan : Plan Body} (hpin : g.Pinnable m.nodes)
    (hplan : p.rewrite (g.pinned m.nodes) m = .ok plan) (hempty : plan.isEmpty = false)
    (hacc : plan.Accepted (g.pinned m.nodes)) (ho : o.changed = true)
    (hreleased : o.released = (unpinAll ((g.pinned m.nodes).apply plan).1 m.nodes).2.1 +
      ((g.pinned m.nodes).apply plan).2.released) :
    Visited p g ⟨root, m, g⟩ (residue (g.pinned m.nodes) m.nodes plan) o := by
  have hlocal := local_of_rewrite hg hp hm hplan hacc
  have hheld := held_pinned hpin
  have hroot : root ∈ m.nodes := (hp.reaches g root m (matchNode_of_matchAt? hm)).1
  have huses : (g.pinned m.nodes).uses = g.uses := uses_of_node? node?_pinned
  have hpart := hlocal.cascade.part
  have hunused (v : Value) (hv : ((g.pinned m.nodes).rewire plan).1.uses v = []) :
      (residue (g.pinned m.nodes) m.nodes plan).uses v = [] :=
    hpart.uses_eq_nil hlocal.rewired.wellFormed.linked hv
  refine ⟨hpart.wellFormed, ?_, ⟨fun _ => ⟨plan, hplan, hempty⟩, fun _ => ho⟩, fun v hv hu => ?_,
    ?_, fun hnot => ?_⟩
  · have hages := (ages_pinned.trans (ages_apply hlocal.wellFormed hacc)).trans
      (ages_unpinAll _ m.nodes)
    rwa [Nat.zero_add, Nat.add_comm, ← hreleased] at hages
  · exact hunused v (hlocal.uses_rewire (by rwa [contains_pinned]) (by rwa [huses]))
  · rintro (⟨hone, hnone⟩ | ⟨plan', hplan', r, hr, hu⟩)
    · refine .inl ⟨root, contains_of_matchAt? hm root hroot, ?_⟩
      refine hlocal.not_contains_root m.nodup_nodes hheld hroot ?_ hone hnone
      rw [kind?_congr bare?_pinned]
      exact exists_kind_root hp hm
    · obtain rfl := Except.ok.inj (hplan.symm.trans hplan')
      obtain ⟨u, hu⟩ := List.exists_mem_of_ne_nil _ hu
      rw [Visit.graph, show (g.pinned m.nodes).uses = g.uses from huses] at hu
      exact .inr ⟨u, r.1, hg.linked.mem_uses_iff.mp hu, hunused r.1 (hlocal.uses_replaced hr)⟩
  · have hunread : ∀ r ∈ plan.replacements, (g.pinned m.nodes).uses r.1 = [] := fun r hr => by
      by_contra hu
      exact hnot (.inr ⟨plan, hplan, r, hr, hu⟩)
    refine (hlocal.bare?_residue hunread ?_).trans bare?_pinned
    by_cases hnone : ∀ v, v.node = root → (g.pinned m.nodes).uses v = []
    · -- a pin from outside is left when the visit has taken its own away
      have hpins : (g.pinned m.nodes).pins root ≠ 1 := fun hone => hnot (.inl ⟨hone, hnone⟩)
      refine hlocal.contains_of_pins (hheld root hroot).1 ?_
      have hcount := List.nodup_iff_count_le_one.mp m.nodup_nodes root
      have hpos := (hheld root hroot).2
      omega
    · push Not at hnone
      obtain ⟨v, hv, hu⟩ := hnone
      exact hlocal.contains_root_of_uses hunread hv hu

theorem visited_visitMatch (e : p.visitMatch g root m = (h, .ok o)) :
    Visited p g ⟨root, m, g⟩ h o := by
  rcases visitMatch_cases hg e with
    ⟨-, hd⟩ | ⟨ho, plan, hplan, hempty, hacc, rfl, hreleased⟩
  · exact visited_of_declines hg hp hm hd e
  · exact visited_of_commit hg hp hm (pinnable_of_visitMatch e) hplan hempty hacc ho hreleased

end Matched

/-! ### Runs -/

theorem released_le_visitAll (e : p.visitAll roots g o = (h, .ok o')) :
    o.released ≤ o'.released := by
  induction roots generalizing g o with
  | nil => exact (Except.ok.inj (Prod.mk.inj e).2) ▸ le_rfl
  | cons root roots ih =>
    unfold PatternPass.visitAll at e
    split at e
    · exact ih e
    · split at e
      · cases (Prod.mk.inj e).2
      · exact (Nat.le_add_right _ _).trans (ih e)

theorem changed_visitAll (hp : p.IsLocal) (hi : i.WellFormed)
    (e : p.visitAll roots i o = (h, .ok o')) :
    o'.changed = true ↔ o.changed = true ∨ ∃ u ∈ p.visits roots i, u.Commits p := by
  induction roots generalizing i o with
  | nil =>
    obtain rfl := Except.ok.inj (Prod.mk.inj e).2
    simp [visits]
  | cons root roots ih =>
    cases hm : p.matchAt? i root with
    | none =>
      simp only [visitAll, visits, hm] at e ⊢
      exact ih hi e
    | some m =>
      rcases hv : p.visitMatch i root m with ⟨j, f | seen⟩
      · simp only [visitAll, hm, hv] at e
        cases (Prod.mk.inj e).2
      · have hvisited := visited_visitMatch hi hp hm hv
        simp only [visitAll, visits, hm, hv] at e ⊢
        rw [ih hvisited.wellFormed e, Outcome.merge, Bool.or_eq_true, hvisited.changed, or_assoc,
          List.exists_mem_cons_iff]

theorem visitAll_loses (hp : p.IsLocal) (hg : g.WellFormed) (hi : i.WellFormed)
    (hages : g.Ages o.released i) (e : p.visitAll roots i o = (h, .ok o'))
    (hbound : o'.released < UInt32.size) :
    (g.Loses i → g.Loses h) ∧ (i.bare? = g.bare? →
      ((∃ u ∈ p.visits roots i, u.Tells p) → g.Loses h) ∧
      ((∀ u ∈ p.visits roots i, ¬ u.Tells p) → h.bare? = g.bare?)) := by
  induction roots generalizing i o with
  | nil =>
    obtain ⟨rfl, -⟩ := Prod.mk.inj e
    simp [visits]
  | cons root roots ih =>
    cases hm : p.matchAt? i root with
    | none =>
      simp only [visitAll, visits, hm] at e ⊢
      exact ih hi hages e
    | some m =>
      rcases hv : p.visitMatch i root m with ⟨j, f | seen⟩
      · simp only [visitAll, hm, hv] at e
        cases (Prod.mk.inj e).2
      · have hvisited := visited_visitMatch hi hp hm hv
        simp only [visitAll, visits, hm, hv] at e ⊢
        have hle := released_le_visitAll e
        obtain ⟨hlost, hsame⟩ := ih hvisited.wellFormed (hages.trans hvisited.ages) e
        have hkeep (hl : g.Loses i) : g.Loses j :=
          hl.trans hg.linked hages hvisited.ages (hle.trans_lt hbound) hvisited.unread
        refine ⟨fun hl => hlost (hkeep hl), fun hbare => ⟨?_, fun hnone => ?_⟩⟩
        · rw [List.exists_mem_cons_iff]
          rintro (htells | hrest)
          · exact hlost ((hvisited.told htells).of_bare hbare)
          · by_cases htells : Visit.Tells p ⟨root, m, i⟩
            · exact hlost ((hvisited.told htells).of_bare hbare)
            · exact (hsame ((hvisited.untold htells).trans hbare)).1 hrest
        · obtain ⟨hfirst, hrest⟩ := List.forall_mem_cons.mp hnone
          exact (hsame ((hvisited.untold hfirst).trans hbare)).2 hrest

/-- A successful run reports a change exactly if a visit committed. If none of the visits tells,
every node is what it was, and otherwise something is lost. -/
theorem IsLocal.run (hp : p.IsLocal) (hg : g.WellFormed) (e : p.run g = (h, .ok o))
    (hbound : o.released < UInt32.size) :
    (o.changed = true ↔ ∃ u ∈ p.trace g, u.Commits p) ∧
      ((∃ u ∈ p.trace g, u.Tells p) → g.Loses h) ∧
      ((∀ u ∈ p.trace g, ¬ u.Tells p) → h.bare? = g.bare?) := by
  obtain ⟨order, horder, -⟩ := hg.topologicalOrder_eq
  have htrace : p.trace g = p.visits order g := by simp only [trace, horder]
  simp only [PatternPass.run, horder] at e
  rw [htrace]
  obtain ⟨-, hsame⟩ := visitAll_loses hp hg hg (.refl g) e hbound
  refine ⟨?_, hsame rfl⟩
  rw [changed_visitAll hp hg e]
  exact or_iff_right Bool.false_ne_true

end PatternPass

open PatternPass

variable {g h : Graph} {o : Outcome}

namespace Matcher

/-- The lowering of Unique commits only what tells, since it replaces what is read. -/
theorem tells_of_unique (hg : g.WellFormed) {u : Visit} (hu : u ∈ UniqueLowering.pass.trace g)
    (hcommits : u.Commits UniqueLowering.pass) : u.Tells UniqueLowering.pass := by
  obtain ⟨-, hm⟩ := (stable_wellFormed.keeps UniqueLowering.pass).trace hg hu
  obtain ⟨plan, hplan, hempty⟩ := hcommits
  have hconfined := UniqueLowering.confined_pass node?_pinned (matchNode_of_matchAt? hm) hplan
  obtain ⟨r, hr⟩ := List.exists_mem_of_ne_nil plan.replacements fun hnil => by
    rw [Plan.isEmpty, hnil] at hempty
    cases hempty
  exact .inr ⟨plan, hplan, r, hr, (hconfined.replacements r hr).1.2⟩

theorem descending (r : Matcher) : r.pass.toPass.Descending r.pass.Overflows := by
  cases r with
  | identityTranspose => exact Transpose.reducing_eliminateIdentity.descending
  | identityReshape => exact Reshape.reducing_eliminateIdentity.descending
  | renewal r =>
    cases r with
    | transposes => exact Transpose.reducing_collapseChain.descending
    | reshapes => exact Reshape.reducing_collapseChain.descending
    | folding => exact ConstantFolding.reducing_pass.descending
    | bias => exact BiasFusion.reducing_plain.descending
    | quantizedBias => exact BiasFusion.reducing_quantized.descending
    | unique => exact UniqueLowering.reducing_pass.descending

/-- A run of a built-in pattern pass reports a change exactly if it committed a rewrite, and the
graph differs afterwards exactly if a visit tells; if it does not differ, every node and every pin
is as it was. So a reported change is a real one if nothing is pinned from outside, and for the
lowering of Unique in any case. Fewer releases than there are generations keep handles apart. -/
theorem run_differs (r : Matcher) (hg : g.WellFormed) (e : r.pass.run g = (h, .ok o))
    (hbound : o.released < 2 ^ 32) :
    (o.changed = true ↔ ∃ u ∈ r.pass.trace g, u.Commits r.pass) ∧
    (g.Differs h ↔ ∃ u ∈ r.pass.trace g, u.Tells r.pass) ∧
    (¬ g.Differs h → h.bare? = g.bare? ∧ h.pins = g.pins) ∧
    (g.Ready → o.changed = true → g.Differs h) ∧
    (r = .renewal .unique → o.changed = true → g.Differs h) := by
  obtain ⟨hchanged, htold, huntold⟩ := r.isLocal.run hg e hbound
  have hsound := Pass.sound_toPass r.pass
  have hh : h.WellFormed := hsound.wellFormed_of hg e
  have htells : g.Differs h ↔ ∃ u ∈ r.pass.trace g, u.Tells r.pass := by
    constructor
    · intro hdiffers
      by_contra hnone
      push Not at hnone
      exact not_differs_of_bare (huntold hnone) hdiffers
    · exact fun htells => (htold htells).differs hh.linked
  have hsame (hnot : ¬ g.Differs h) : h.bare? = g.bare? ∧ h.pins = g.pins := by
    rw [htells] at hnot
    push Not at hnot
    refine ⟨huntold hnot, ?_⟩
    have hpins := (r.pass.trace_balanced hg).pins
    rwa [e] at hpins
  refine ⟨hchanged, htells, hsame, fun hready ho => ?_, ?_⟩
  · -- the measure went down, so that not all nodes can be what they were
    by_contra hnot
    rcases r.descending g hready with ⟨h', o', e', hready', -, hlt⟩ | ⟨h', e', -⟩
    · obtain ⟨rfl, he⟩ := Prod.mk.inj (e.symm.trans e')
      obtain rfl := Except.ok.inj he
      have hpart : h.Part g := ⟨hg, fun x _ => (congrFun (hsame hnot).1 x).symm,
        hready.regular.table.trans hready'.regular.table.symm⟩
      exact absurd (hlt ho) (hpart.measure_le hh.linked).not_gt
    · cases (Prod.mk.inj (e.symm.trans e')).2
  · rintro rfl ho
    obtain ⟨u, hu, hcommits⟩ := hchanged.mp ho
    exact htells.mpr ⟨u, hu, tells_of_unique hg hu hcommits⟩

end Matcher

/-! ### Held from outside -/

/-- The rewrite goes past a reshape that is held and read, and that tells: the result reads the
parameter then. -/
theorem Matcher.differs_heldEcho : heldEcho.WellFormed ∧
    ∃ h, Matcher.identityReshape.pass.run heldEcho = (h, .ok ⟨true, 1, 1, 0⟩) ∧
      0 < 2 ^ 32 ∧ h.contains ⟨1, 0⟩ = true ∧ heldEcho.Differs h := by
  have e : Matcher.identityReshape.pass.run heldEcho =
      ((Matcher.identityReshape.pass.run heldEcho).1, .ok ⟨true, 1, 1, 0⟩) := Prod.ext rfl (by cbv)
  let found := changeMatch ⟨1, 0⟩ (Pipeline.first 0)
  have htrace : Matcher.identityReshape.pass.trace heldEcho =
      [⟨⟨1, 0⟩, found, heldEcho⟩] := by cbv
  have htells : ∃ u ∈ Matcher.identityReshape.pass.trace heldEcho,
      u.Tells Matcher.identityReshape.pass := by
    rw [htrace]
    refine ⟨_, List.mem_singleton_self _, .inr ⟨⟨[], [(Pipeline.first 1, .graph (Pipeline.first 0))],
      []⟩, by rfl, _, List.mem_singleton_self _, ?_⟩⟩
    exact List.cons_ne_nil _ _
  refine ⟨wellFormed_heldEcho, _, e, by decide, by cbv, ?_⟩
  exact (Matcher.run_differs .identityReshape wellFormed_heldEcho e (by decide)).2.1.mpr htells

open Pipeline (slotOf first reader f32)

/-- A transpose that changes nothing and that nothing reads, held by a handle from outside. -/
def heldTranspose : Graph where
  slots := #[
    slotOf (Primitive.parameter (f32 [2, 3])) [] [⟨f32 [2, 3], [reader 1 0]⟩],
    ⟨0, 1, some ⟨Primitive.transpose [0, 1], [first 0], [⟨f32 [2, 3], []⟩], "", .empty⟩⟩]
  free := []
  parameters := [⟨0, 0⟩]
  results := []
  live := 2
  version := 0
  table := .standard

/-- The run reports a rewrite, and apart from the version the graph is what it was. -/
theorem Matcher.unchanged_heldTranspose :
    heldTranspose.WellFormed ∧ heldTranspose.table = .standard ∧
      Matcher.identityTranspose.pass.run heldTranspose =
        ({ heldTranspose with version := 2 }, .ok ⟨true, 1, 1, 0⟩) ∧
      ¬ heldTranspose.Differs { heldTranspose with version := 2 } := by
  refine ⟨?_, rfl, by cbv, not_differs_of_bare rfl⟩
  exact Arena.wellFormed_of_validate (by cbv) (by decide) (by decide) (by decide)
    (fun _ h => absurd h List.not_mem_nil) (by cbv)

end TensorGraph
