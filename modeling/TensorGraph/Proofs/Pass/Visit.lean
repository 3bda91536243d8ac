import TensorGraph.Proofs.Pattern.Inversion
import TensorGraph.Proofs.Rewrite.Tightness
import TensorGraph.Pass.Pattern

/-! # Visits

A visit pins what it matched, commits the rewrite for it if there is one, and unpins. Without a
commit it does nothing but release, and in a tight graph it does not even do that.
-/

namespace TensorGraph

namespace Arena

variable {β : Type} {a b : Arena β} {x id : NodeId} {ids : List NodeId} {k : Nat}

/-! ### Pins -/

def pinned (a : Arena β) (ids : List NodeId) : Arena β :=
  ids.foldl (fun a id => a.modifyPins id.index (· + 1)) a

def unpinned (a : Arena β) (ids : List NodeId) : Arena β :=
  ids.foldl (fun a id => a.modifyPins id.index dropPin) a

/-- The nodes are there, and one more pin can be counted for each of them. -/
def Pinnable (a : Arena β) (ids : List NodeId) : Prop :=
  ∀ id ∈ ids, a.contains id = true ∧ a.pins id < pinLimit

instance (a : Arena β) (ids : List NodeId) : Decidable (a.Pinnable ids) :=
  inferInstanceAs (Decidable (∀ id ∈ ids, _))

theorem modifyPins_comm (i j : Nat) (f : UInt32 → UInt32) :
    modifyPins i f (modifyPins j f a) = modifyPins j f (modifyPins i f a) := by
  simp only [modifyPins, Arena.mk.injEq, and_true]
  refine Array.ext_getElem? fun m => ?_
  simp only [Array.getElem?_modify]
  split <;> split <;> simp_all

theorem pinned_modifyPins (i : Nat) :
    (modifyPins i (· + 1) a).pinned ids = modifyPins i (· + 1) (a.pinned ids) := by
  unfold pinned
  induction ids generalizing a with
  | nil => rfl
  | cons id ids ih => rw [List.foldl_cons, modifyPins_comm, ih, List.foldl_cons]

theorem node?_pinned : (a.pinned ids).node? = a.node? := by
  unfold pinned
  induction ids generalizing a with
  | nil => rfl
  | cons id ids ih => exact (ih).trans (node?_modifyPins _ _)

theorem contains_pinned : (a.pinned ids).contains = a.contains := by
  funext x
  rw [contains, node?_pinned, contains]

theorem occupied_modifyPins (i : Nat) (f : UInt32 → UInt32) :
    (modifyPins i f a).occupied = a.occupied := by
  simp [occupied, modifyPins, countP_modify_of_eq]

theorem occupied_pinned : (a.pinned ids).occupied = a.occupied := by
  unfold pinned
  induction ids generalizing a with
  | nil => rfl
  | cons id ids ih => exact (ih).trans (occupied_modifyPins _ _)

theorem contains_modifyPins (i : Nat) (f : UInt32 → UInt32) :
    (modifyPins i f a).contains = a.contains := by
  funext x
  rw [contains, node?_modifyPins, contains]

theorem Pinnable.contains (h : a.Pinnable ids) : ∀ id ∈ ids, a.contains id = true :=
  fun id hid => (h id hid).1

theorem pinnable_raised_iff (hid : a.contains id = true) (hlt : a.pins id < pinLimit)
    (hnot : id ∉ ids) : (a.modifyPins id.index (· + 1)).Pinnable ids ↔ a.Pinnable ids := by
  refine forall₂_congr fun x hx => ?_
  have hne : x ≠ id := fun he => hnot (he ▸ hx)
  rw [contains_modifyPins, pins_raised hid hlt, if_neg hne]

theorem pins_pinned (hids : ids.Nodup) (h : a.Pinnable ids) :
    (a.pinned ids).pins x = a.pins x + if x ∈ ids then 1 else 0 := by
  unfold pinned
  induction ids generalizing a with
  | nil => rfl
  | cons id ids ih =>
    obtain ⟨hnot, hids⟩ := List.nodup_cons.mp hids
    obtain ⟨⟨hid, hlt⟩, h⟩ := List.forall_mem_cons.mp h
    rw [List.foldl_cons, ih hids ((pinnable_raised_iff hid hlt hnot).mpr h), pins_raised hid hlt]
    by_cases hx : x = id
    · simp [hx, hnot]
    · simp [hx]

theorem pins_le_pinned (hids : ids.Nodup) (h : a.Pinnable ids) :
    a.pins x ≤ (a.pinned ids).pins x := by
  rw [pins_pinned hids h]
  exact Nat.le_add_right _ _

theorem modifyPins_cancel (hid : a.contains id = true) (hlt : a.pins id < pinLimit) :
    modifyPins id.index dropPin (modifyPins id.index (· + 1) a) = a := by
  obtain ⟨n, hn⟩ := contains_iff.mp hid
  obtain ⟨s, hs, hg, -⟩ := node?_eq_some_iff.mp hn
  have hpins : a.pins id = s.pins.toNat := by simp [pins, slot?, hs, hg, Option.filter]
  have hsame : dropPin (s.pins + 1) = s.pins := by
    apply UInt32.toNat_inj.mp
    rw [toNat_dropPin, UInt32.toNat_add, Nat.mod_eq_of_lt (Nat.add_lt_of_lt_sub (hpins ▸ hlt))]
    rfl
  have hslots : (modifyPins id.index dropPin (modifyPins id.index (· + 1) a)).slots = a.slots := by
    refine Array.ext_getElem? fun m => ?_
    simp only [modifyPins, Array.getElem?_modify]
    split
    · rename_i hm
      rw [← hm, hs]
      simp [hsame]
    · rfl
  cases a
  simpa [modifyPins] using hslots

theorem pinned_cancel (hids : (id :: ids).Nodup) (h : a.Pinnable (id :: ids)) :
    modifyPins id.index dropPin (a.pinned (id :: ids)) = a.pinned ids := by
  obtain ⟨hnot, hids⟩ := List.nodup_cons.mp hids
  obtain ⟨⟨hid, hlt⟩, h⟩ := List.forall_mem_cons.mp h
  have hcons : a.pinned (id :: ids) = (modifyPins id.index (· + 1) a).pinned ids := rfl
  rw [hcons, pinned_modifyPins, modifyPins_cancel]
  · rwa [contains_pinned]
  · rwa [pins_pinned hids h, if_neg hnot]

theorem unpinned_pinned (hids : ids.Nodup) (h : a.Pinnable ids) :
    (a.pinned ids).unpinned ids = a := by
  induction ids with
  | nil => rfl
  | cons id ids ih =>
    have hcons : (a.pinned (id :: ids)).unpinned (id :: ids) =
        (modifyPins id.index dropPin (a.pinned (id :: ids))).unpinned ids := rfl
    rw [hcons, pinned_cancel hids h]
    exact ih (List.nodup_cons.mp hids).2 (List.forall_mem_cons.mp h).2

theorem pinned_induction {P : Arena β → Prop}
    (hP : ∀ a id, P a → a.contains id = true → P (a.modifyPins id.index (· + 1))) (ha : P a)
    (h : ∀ id ∈ ids, a.contains id = true) : P (a.pinned ids) := by
  unfold pinned
  induction ids generalizing a with
  | nil => exact ha
  | cons id ids ih =>
    obtain ⟨hid, hids⟩ := List.forall_mem_cons.mp h
    refine ih (hP a id ha hid) ?_
    rwa [contains_modifyPins]

theorem WellFormed.pinned (ha : a.WellFormed) (h : ∀ id ∈ ids, a.contains id = true) :
    (a.pinned ids).WellFormed :=
  pinned_induction (fun _ _ ha hid => ha.modifyPins _ hid) ha h

/-! ### Releases that release nothing -/

theorem release_of_not_dead {id : NodeId} (h : ¬ a.Dead id) : a.release id = (a, 0) := by
  have hsweep : a.sweep [id] = (a, 0) := by
    rw [sweep]
    split
    · rw [sweep]
    · rename_i n hn
      exact absurd (dead_iff.mpr ⟨n, hn⟩) h
  simp only [release, hsweep, if_true]

end Arena

namespace PatternPass

variable {p : PatternPass} {g h : Graph} {ids : List NodeId} {root : NodeId} {m : Match} {k : Nat}

open Arena

theorem pinAll_eq_ok_iff (hids : ids.Nodup) :
    pinAll g ids = .ok h ↔ g.Pinnable ids ∧ h = g.pinned ids := by
  unfold pinAll
  induction ids generalizing g with
  | nil =>
    exact ⟨fun e => ⟨fun _ hid => absurd hid List.not_mem_nil, (Except.ok.inj e).symm⟩,
      fun e => congrArg _ e.2.symm⟩
  | cons id ids ih =>
    obtain ⟨hnot, hids⟩ := List.nodup_cons.mp hids
    rw [List.foldlM_cons, bind_eq_ok_iff]
    simp only [pin_eq_ok_iff, ih hids]
    constructor
    · rintro ⟨-, ⟨⟨hid, hlt⟩, rfl⟩, h, rfl⟩
      exact ⟨List.forall_mem_cons.mpr
        ⟨⟨hid, hlt⟩, (pinnable_raised_iff hid hlt hnot).mp h⟩, rfl⟩
    · rintro ⟨hall, rfl⟩
      obtain ⟨⟨hid, hlt⟩, h⟩ := List.forall_mem_cons.mp hall
      exact ⟨_, ⟨⟨hid, hlt⟩, rfl⟩, (pinnable_raised_iff hid hlt hnot).mpr h, rfl⟩

/-- Nodes that are there are pinned, unless one of them has too many pins already. -/
theorem pinAll_eq_overflow (hids : ids.Nodup) (hlive : ∀ id ∈ ids, g.contains id = true)
    (h : ¬ g.Pinnable ids) : pinAll g ids = .error .overflow := by
  unfold pinAll
  induction ids generalizing g with
  | nil => exact absurd (fun _ hid => absurd hid List.not_mem_nil) h
  | cons id ids ih =>
    obtain ⟨hnot, hids⟩ := List.nodup_cons.mp hids
    obtain ⟨hid, hlive⟩ := List.forall_mem_cons.mp hlive
    rw [List.foldlM_cons]
    by_cases hlt : g.pins id < pinLimit
    · rw [pin_eq_ok_iff.mpr ⟨⟨hid, hlt⟩, rfl⟩]
      refine ih hids (fun x hx => ?_) fun hrest => ?_
      · rw [contains_modifyPins]
        exact hlive x hx
      · rw [pinnable_raised_iff hid hlt hnot] at hrest
        exact h (List.forall_mem_cons.mpr ⟨⟨hid, hlt⟩, hrest⟩)
    · rw [pin, if_pos hid, if_neg hlt]
      rfl

theorem pinAll_induction {P : Graph → Prop} (hP : ∀ g id h, P g → g.pin id = .ok h → P h)
    (hg : P g) (e : pinAll g ids = .ok h) : P h := by
  unfold pinAll at e
  induction ids generalizing g with
  | nil => exact Except.ok.inj e ▸ hg
  | cons id ids ih =>
    rw [List.foldlM_cons] at e
    obtain ⟨i, hi, e⟩ := bind_eq_ok_iff.mp e
    exact ih (hP g id i hg hi) e

/-- What is kept by pins, by unpinning and by the commits of a pass. A rewrite sees the graph in
which its match was found, with the matched nodes pinned. -/
structure Keeps (p : PatternPass) (P : Graph → Prop) : Prop where
  pin : ∀ g id h, P g → g.pin id = .ok h → P h
  unpin : ∀ g id h k, P g → g.unpin id = .ok (h, k) → P h
  commit : ∀ g root m plan, P (g.pinned m.nodes) → p.pattern.matchNode g root = some m →
    p.rewrite (g.pinned m.nodes) m = .ok plan → plan.Accepted (g.pinned m.nodes) →
    P ((g.pinned m.nodes).apply plan).1

theorem matchNode_of_matchAt? (e : p.matchAt? g root = some m) :
    p.pattern.matchNode g root = some m := by
  unfold matchAt? at e
  split at e
  · cases e
  · split at e
    · exact e
    · cases e

theorem commitMatch_induction {P : Graph → Prop} (p : PatternPass) (hg : P g)
    (h : ∀ plan, p.rewrite g m = .ok plan → plan.Accepted g → P (g.apply plan).1) :
    P (p.commitMatch g m).1 := by
  unfold commitMatch
  split
  · exact hg
  · exact hg
  · rename_i plan hplan
    split
    · exact hg
    · split
      · rename_i h' done e
        obtain ⟨hacc, he⟩ := commit_eq_ok_iff.mp e
        obtain rfl : h' = _ := congrArg Prod.fst he
        exact h plan hplan hacc
      · exact hg

theorem unpinAll_induction {P : Graph → Prop}
    (hP : ∀ g id h k, P g → g.unpin id = .ok (h, k) → P h) (hg : P g) (ids : List NodeId) :
    P (unpinAll g ids).1 := by
  induction ids generalizing g with
  | nil => exact hg
  | cons id ids ih =>
    unfold PatternPass.unpinAll
    split
    · rename_i h k e
      exact ih (hP g id h k hg e)
    · exact ih hg

namespace Keeps

variable {P : Graph → Prop} (hP : p.Keeps P)
include hP

theorem unpinAll (hg : P g) (ids : List NodeId) : P (unpinAll g ids).1 :=
  unpinAll_induction hP.unpin hg ids

theorem visitMatch (hg : P g) (hm : p.pattern.matchNode g root = some m) :
    P (p.visitMatch g root m).1 := by
  unfold PatternPass.visitMatch
  dsimp only
  split
  · exact hg
  · rename_i h e
    have hpinned := pinAll_induction hP.pin hg e
    obtain ⟨-, rfl⟩ := (pinAll_eq_ok_iff m.nodup_nodes).mp e
    have hcommit := p.commitMatch_induction hpinned fun plan => hP.commit g root m plan hpinned hm
    have hfinal := hP.unpinAll hcommit m.nodes
    split
    · exact hg
    all_goals exact hfinal

theorem visitAll (hg : P g) (roots : List NodeId) (o : Outcome) :
    P (p.visitAll roots g o).1 := by
  induction roots generalizing g o with
  | nil => exact hg
  | cons root roots ih =>
    unfold PatternPass.visitAll
    split
    · exact ih hg o
    · rename_i m hm
      have hvisit := hP.visitMatch hg (matchNode_of_matchAt? hm)
      split
      · rename_i h e he
        rw [he] at hvisit
        exact hvisit
      · rename_i h o' he
        rw [he] at hvisit
        exact ih hvisit _

theorem run (hg : P g) : P (p.run g).1 := by
  unfold PatternPass.run
  split
  · exact hg
  · exact hP.visitAll hg _ _

end Keeps

/-- What is kept by every pattern pass whatever its rewrites are. -/
structure Stable (P : Graph → Prop) : Prop where
  wellFormed : ∀ g, P g → g.WellFormed
  pin : ∀ g id h, P g → g.pin id = .ok h → P h
  unpin : ∀ g id h k, P g → g.unpin id = .ok (h, k) → P h
  commit : ∀ g (plan : Plan Body), P g → plan.Accepted g → P (g.apply plan).1

theorem stable_wellFormed : Stable Arena.WellFormed where
  wellFormed _ hg := hg
  pin _ _ _ hg e := hg.pin e
  unpin _ _ _ _ hg e := hg.unpin e
  commit _ _ hg hp := hg.apply hp

theorem stable_tight : Stable fun g => g.WellFormed ∧ g.Tight where
  wellFormed _ hg := hg.1
  pin _ _ _ hg e := ⟨hg.1.pin e, hg.2.pin e⟩
  unpin _ _ _ _ hg e := ⟨hg.1.unpin e, hg.2.unpin hg.1 e⟩
  commit _ _ hg hp := ⟨hg.1.apply hp, hg.2.apply hg.1 hp⟩

theorem Stable.keeps {P : Graph → Prop} (hP : Stable P) (p : PatternPass) : p.Keeps P where
  pin := hP.pin
  unpin := hP.unpin
  commit _ _ _ plan hg _ _ hp := hP.commit _ plan hg hp

/-! ### Visits without a commit -/

/-- Nothing was done but so many releases; if there were none, nothing was done at all. -/
structure Quiet (g : Graph) (k : Nat) (h : Graph) : Prop where
  occupied : h.occupied + k = g.occupied
  same : k = 0 → h = g

theorem Quiet.refl (g : Graph) : Quiet g 0 g := ⟨rfl, fun _ => rfl⟩

theorem Quiet.trans {l : Nat} {i : Graph} (hq : Quiet g k h) (hq' : Quiet h l i) :
    Quiet g (k + l) i where
  occupied := by
    have := hq.occupied
    have := hq'.occupied
    omega
  same hz := (hq'.same (by omega)).trans (hq.same (by omega))

theorem unpinAll_cons_ok {id : NodeId} (e : g.unpin id = .ok (h, k)) :
    unpinAll g (id :: ids) =
      ((unpinAll h ids).1, k + (unpinAll h ids).2.1, (unpinAll h ids).2.2) := by
  simp only [unpinAll, e]

theorem unpinAll_cons_error {id : NodeId} {f : GraphError} (e : g.unpin id = .error f) :
    unpinAll g (id :: ids) = ((unpinAll g ids).1, (unpinAll g ids).2.1, some f) := by
  simp only [unpinAll, e]

theorem unpin_quiet {id : NodeId} (e : g.unpin id = .ok (h, k)) :
    h.occupied + k = g.occupied ∧ (k = 0 → h = g.modifyPins id.index dropPin) := by
  obtain ⟨-, he⟩ := unpin_eq_ok_iff.mp e
  have hocc := (releases_release (g.modifyPins id.index dropPin) id).occupied
  have hsame (hz : ((g.modifyPins id.index dropPin).release id).2 = 0) := release_eq_zero hz
  rw [← he] at hocc hsame
  exact ⟨hocc.trans (occupied_modifyPins _ _), hsame⟩

theorem unpinAll_quiet (e : (unpinAll g ids).2.2 = none) :
    (unpinAll g ids).1.occupied + (unpinAll g ids).2.1 = g.occupied ∧
      ((unpinAll g ids).2.1 = 0 → (unpinAll g ids).1 = g.unpinned ids) := by
  induction ids generalizing g with
  | nil => exact ⟨rfl, fun _ => rfl⟩
  | cons id ids ih =>
    cases he : g.unpin id with
    | error f =>
      rw [unpinAll_cons_error he] at e
      cases e
    | ok done =>
      obtain ⟨h, k⟩ := done
      rw [unpinAll_cons_ok he] at e ⊢
      obtain ⟨hocc, hsame⟩ := ih e
      obtain ⟨hocc', hsame'⟩ := unpin_quiet he
      refine ⟨by dsimp only; omega, fun hz => ?_⟩
      obtain ⟨hk, hrest⟩ := Nat.add_eq_zero_iff.mp hz
      rw [hsame hrest, hsame' hk]
      rfl

theorem unpinAll_pinned (hids : ids.Nodup) (hpin : g.Pinnable ids)
    (halive : ∀ id ∈ ids, ¬ g.Dead id) : unpinAll (g.pinned ids) ids = (g, 0, none) := by
  induction ids with
  | nil => rfl
  | cons id ids ih =>
    obtain ⟨-, hrest⟩ := List.nodup_cons.mp hids
    obtain ⟨hid, hpins⟩ := List.forall_mem_cons.mp hpin
    obtain ⟨hdead, halive⟩ := List.forall_mem_cons.mp halive
    have hdead' : ¬ (g.pinned ids).Dead id := fun hd =>
      hdead (hd.of_pins node?_pinned (pins_le_pinned hrest hpins))
    have hunpin : (g.pinned (id :: ids)).unpin id = .ok (g.pinned ids, 0) := by
      rw [unpin_eq_ok_iff, contains_pinned, pinned_cancel hids hpin, release_of_not_dead hdead']
      exact ⟨hid.1, rfl⟩
    rw [unpinAll_cons_ok hunpin, ih hrest hpins halive]
    rfl

def Declines (p : PatternPass) (g : Graph) (m : Match) : Prop :=
  p.rewrite g m = .error .declined ∨ ∃ plan, p.rewrite g m = .ok plan ∧ plan.isEmpty = true

theorem Declines.isEmpty {plan : Plan Body} (h : p.Declines g m) (e : p.rewrite g m = .ok plan) :
    plan.isEmpty = true := by
  rcases h with h | ⟨plan', h, hempty⟩
  · cases h.symm.trans e
  · obtain rfl := Except.ok.inj (h.symm.trans e)
    exact hempty

/-- Either an accepted plan is applied or the graph stays. -/
theorem commitMatch_cases (p : PatternPass) (g : Graph) (m : Match) :
    (∃ plan, p.rewrite g m = .ok plan ∧ plan.isEmpty = false ∧ plan.Accepted g ∧
      p.commitMatch g m = ((g.apply plan).1, .ok (some (g.apply plan).2))) ∨
    (p.commitMatch g m = (g, .ok none) ∧ p.Declines g m) ∨
    ∃ e, p.commitMatch g m = (g, .error e) := by
  unfold PatternPass.commitMatch
  split
  · exact .inr (.inr ⟨_, rfl⟩)
  · rename_i hnone
    exact .inr (.inl ⟨rfl, .inl hnone⟩)
  · rename_i plan hplan
    split
    · rename_i hempty
      exact .inr (.inl ⟨rfl, .inr ⟨plan, hplan, hempty⟩⟩)
    · rename_i hempty
      split
      · rename_i h done e
        obtain ⟨hp, he⟩ := commit_eq_ok_iff.mp e
        obtain ⟨rfl, rfl⟩ := Prod.mk.inj he
        exact .inl ⟨plan, hplan, by simpa using hempty, hp, rfl⟩
      · rename_i e _
        exact .inr (.inr ⟨e, rfl⟩)

/-- A visit that succeeds could pin all that was matched. -/
theorem pinnable_of_visitMatch {o : Outcome} (e : p.visitMatch g root m = (h, .ok o)) :
    g.Pinnable m.nodes := by
  cases hpin : pinAll g m.nodes with
  | error f =>
    simp only [visitMatch, hpin] at e
    cases (Prod.mk.inj e).2
  | ok h => exact ((pinAll_eq_ok_iff m.nodup_nodes).mp hpin).1

/-- A match without a commit: it was declined, and the nodes were pinned and unpinned again. -/
theorem visitMatch_unchanged {o : Outcome} (e : p.visitMatch g root m = (h, .ok o))
    (ho : o.changed = false) : g.Pinnable m.nodes ∧
      p.Declines (g.pinned m.nodes) m ∧
      unpinAll (g.pinned m.nodes) m.nodes = (h, o.released, none) := by
  unfold PatternPass.visitMatch at e
  dsimp only at e
  split at e
  · cases (Prod.mk.inj e).2
  rename_i i hi
  obtain ⟨hids, rfl⟩ := (pinAll_eq_ok_iff m.nodup_nodes).mp hi
  refine ⟨hids, ?_⟩
  rcases p.commitMatch_cases (g.pinned m.nodes) m with
    ⟨plan, -, -, -, hc⟩ | ⟨hc, hdeclines⟩ | ⟨f, hc⟩
  · rw [hc] at e
    generalize unpinAll _ m.nodes = u at e
    obtain ⟨i, k, failure⟩ := u
    cases failure with
    | some f => cases (Prod.mk.inj e).2
    | none =>
      obtain rfl := Except.ok.inj (Prod.mk.inj e).2
      cases ho
  · refine ⟨hdeclines, ?_⟩
    rw [hc] at e
    generalize unpinAll _ m.nodes = u at e
    obtain ⟨i, k, failure⟩ := u
    cases failure with
    | some f => cases (Prod.mk.inj e).2
    | none =>
      obtain ⟨rfl, he⟩ := Prod.mk.inj e
      obtain rfl := Except.ok.inj he
      rfl
  · rw [hc] at e
    cases f <;> cases (Prod.mk.inj e).2

theorem visitMatch_quiet {o : Outcome} (e : p.visitMatch g root m = (h, .ok o))
    (ho : o.changed = false) : Quiet g o.released h := by
  obtain ⟨hpin, -, hu⟩ := visitMatch_unchanged e ho
  obtain ⟨hocc, hsame⟩ := unpinAll_quiet (congrArg (·.2.2) hu)
  rw [hu] at hocc hsame
  exact ⟨hocc.trans occupied_pinned,
    fun hz => (hsame hz).trans (unpinned_pinned m.nodup_nodes hpin)⟩

theorem visitMatch_still {o : Outcome} (ht : g.Tight)
    (e : p.visitMatch g root m = (h, .ok o)) (ho : o.changed = false) : h = g := by
  obtain ⟨hpin, -, hu⟩ := visitMatch_unchanged e ho
  rw [unpinAll_pinned m.nodup_nodes hpin fun id _ => ht id] at hu
  exact (Prod.mk.inj hu).1.symm

theorem visitAll_quiet {roots : List NodeId} {o o' : Outcome}
    (e : p.visitAll roots g o = (h, .ok o')) (ho : o'.changed = false) :
    o.changed = false ∧ ∃ k, o'.released = o.released + k ∧ Quiet g k h := by
  induction roots generalizing g o with
  | nil =>
    obtain ⟨rfl, he⟩ := Prod.mk.inj e
    obtain rfl := Except.ok.inj he
    exact ⟨ho, 0, rfl, .refl g⟩
  | cons root roots ih =>
    unfold PatternPass.visitAll at e
    split at e
    · exact ih e
    · rename_i m _
      split at e
      · cases (Prod.mk.inj e).2
      · rename_i i seen hvisit
        obtain ⟨hmerge, k, hk, hq⟩ := ih e
        obtain ⟨hfirst, hseen⟩ := Bool.or_eq_false_iff.mp hmerge
        refine ⟨hfirst, seen.released + k, ?_, (visitMatch_quiet hvisit hseen).trans hq⟩
        rw [hk, Outcome.merge, Nat.add_assoc]

/-- In a tight graph a run without a change declines every match and leaves the graph. -/
theorem visitAll_still {roots : List NodeId} {o o' : Outcome} (ht : g.Tight)
    (e : p.visitAll roots g o = (h, .ok o')) (ho : o'.changed = false) :
    h = g ∧ ∀ root ∈ roots, ∀ m, p.matchAt? g root = some m →
      p.Declines (g.pinned m.nodes) m := by
  induction roots generalizing g o with
  | nil => exact ⟨(Prod.mk.inj e).1.symm, fun _ hr => absurd hr List.not_mem_nil⟩
  | cons root roots ih =>
    unfold PatternPass.visitAll at e
    split at e
    · rename_i hnone
      obtain ⟨rfl, hrest⟩ := ih ht e
      refine ⟨rfl, List.forall_mem_cons.mpr ⟨fun m hm => ?_, hrest⟩⟩
      rw [hnone] at hm
      cases hm
    · rename_i m hm
      split at e
      · cases (Prod.mk.inj e).2
      · rename_i i seen hvisit
        obtain ⟨hmerge, -⟩ := visitAll_quiet e ho
        have hseen := (Bool.or_eq_false_iff.mp hmerge).2
        obtain rfl := visitMatch_still ht hvisit hseen
        obtain ⟨rfl, hrest⟩ := ih ht e
        refine ⟨rfl, List.forall_mem_cons.mpr ⟨fun m' hm' => ?_, hrest⟩⟩
        obtain rfl := Option.some.inj (hm.symm.trans hm')
        exact (visitMatch_unchanged hvisit hseen).2.1

end PatternPass

end TensorGraph
