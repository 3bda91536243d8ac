import TensorGraph.Proofs.Arena.Allocation

/-! # Release

Releasing a dead node takes it out and takes its uses off the values that it read, and nothing
else changes. What several releases leave is therefore a part of the arena before them: every
node that remains is what it was, and is read by those of its readers that remain.
-/

namespace TensorGraph.Arena

variable {β : Type} {a b c : Arena β} {x id : NodeId} {n : Node β} {v : Value} {u : Use} {k : Nat}

theorem toNat_eq_zero_iff {n : UInt32} : n.toNat = 0 ↔ n = 0 := by
  rw [← UInt32.toNat_inj]
  rfl

theorem pins_eq_zero_iff {s : Slot β} (hs : a.slots[id.index]? = some s)
    (hg : s.generation = id.generation) : a.pins id = 0 ↔ s.pins = 0 := by
  simp [pins, slot?, hs, hg, Option.filter, toNat_eq_zero_iff]

theorem dead?_eq_some_iff : a.dead? id = some n ↔
    a.node? id = some n ∧ a.pins id = 0 ∧ n.isAnchor = false ∧ n.isUnused = true := by
  simp only [dead?, node?, pins]
  cases a.slot? id with
  | none => simp
  | some s => simp [Option.filter_eq_some_iff, and_assoc, toNat_eq_zero_iff]

/-! ### Vacating a slot -/

section Vacate

variable (hid : a.node? id = some n)
include hid

theorem node?_vacate : (a.vacate id.index).node? x = if x = id then none else a.node? x := by
  by_cases hi : x.index = id.index
  · have hnone : (a.vacate id.index).node? x = none := by
      simp only [node?, slot?, vacate, Array.getElem?_modify, hi, if_true]
      cases a.slots[id.index]? with
      | none => rfl
      | some s => by_cases hg : s.generation + 1 = x.generation <;> simp [Option.filter, hg]
    rw [hnone]
    split
    · rfl
    · rename_i hne
      cases hx : a.node? x with
      | none => rfl
      | some m => exact absurd (eq_of_node?_index hx hid hi) hne
  · have hne : x ≠ id := fun he => hi (he ▸ rfl)
    simp [node?, slot?, vacate, Array.getElem?_modify, Ne.symm hi, hne]

theorem pins_vacate (hp : a.pins id = 0) : (a.vacate id.index).pins = a.pins := by
  funext x
  obtain ⟨s, hs, hg, -⟩ := node?_eq_some_iff.mp hid
  have hzero := (pins_eq_zero_iff hs hg).mp hp
  simp only [pins, slot?, vacate, Array.getElem?_modify]
  split
  · rename_i hi
    rw [← hi, hs]
    by_cases h₁ : s.generation + 1 = x.generation <;> by_cases h₂ : s.generation = x.generation <;>
      simp [Option.filter, h₁, h₂, hzero]
  · rfl

theorem uses_vacate : (a.vacate id.index).uses v = if v.node = id then [] else a.uses v := by
  rw [uses_eq_node?, node?_vacate hid]
  split
  · rfl
  · rw [uses_eq_node?]

theorem bare?_vacate : (a.vacate id.index).bare? x = if x = id then none else a.bare? x := by
  rw [bare?, node?_vacate hid]
  split <;> rfl

end Vacate

/-! ### Detaching inputs -/

theorem sameSlots_detach (id : NodeId) (inputs : List Value) : a.SameSlots (a.detach id inputs) :=
  .foldl _ (fun a _ => .modifyNode a _ _) _ a

theorem bare?_detach (id : NodeId) (inputs : List Value) :
    (a.detach id inputs).bare? = a.bare? := by
  rw [detach]
  induction inputs.zipIdx generalizing a with
  | nil => rfl
  | cons x l ih => rw [List.foldl_cons, ih, bare?_removeUse]

theorem uses_detach {inputs : List Value} (h : ∀ w ∈ inputs, a.hasOutput w = true) :
    (a.detach id inputs).uses v = (a.uses v).filter (· ∉ usesAmong id inputs v) := by
  have h' : ∀ x ∈ inputs.zipIdx, a.hasOutput x.1 = true := fun x hx =>
    h _ (List.fst_mem_of_mem_zipIdx hx)
  clear h
  rw [detach, usesAmong, usesWhere]
  generalize inputs.zipIdx = l at h'
  induction l generalizing a with
  | nil => exact (List.filter_eq_self.mpr (by simp)).symm
  | cons x l ih =>
    have hx := h' x List.mem_cons_self
    have hmem (u : Use) : u ∈ ((x :: l).filter fun x => x.1 = v).map (fun x => id.input x.2) ↔
        v = x.1 ∧ u = id.input x.2 ∨ u ∈ (l.filter fun x => x.1 = v).map fun x => id.input x.2 := by
      rw [List.filter_cons]
      by_cases hv : v = x.1
      · simp [hv]
      · simp [hv, Ne.symm hv]
    rw [List.foldl_cons, ih fun y hy => ?_, uses_removeUse hx]
    · simp only [hmem]
      by_cases hv : v = x.1
      · subst hv
        rw [if_pos rfl, List.filter_filter]
        refine List.filter_congr fun u _ => ?_
        simp only [true_and, not_or, Bool.decide_and, Bool.and_comm]
      · simp only [hv, if_false, false_and, false_or]
    · rw [hasOutput_congr (bare?_removeUse _ _)]
      exact h' y (List.mem_cons_of_mem _ hy)

/-! ### Releasing one node -/

def drop (a : Arena β) (id : NodeId) (n : Node β) : Arena β :=
  (a.vacate id.index).detach id n.inputs

section Drop

variable (h : a.WellFormed) (hd : a.dead? id = some n)
include hd

theorem bare?_drop : (a.drop id n).bare? x = if x = id then none else a.bare? x := by
  rw [drop, bare?_detach, bare?_vacate (dead?_eq_some_iff.mp hd).1]

theorem producer?_drop :
    (a.drop id n).producer? u = if u.node = id then none else a.producer? u := by
  rw [producer?_eq_bare, bare?_drop hd, producer?_eq_bare]
  split <;> rfl

theorem contains_drop :
    (a.drop id n).contains x = (decide (x ≠ id) && a.contains x) := by
  rw [contains_eq_bare, bare?_drop hd, contains_eq_bare]
  split <;> simp_all

theorem pins_drop : (a.drop id n).pins = a.pins := by
  obtain ⟨hid, hp, -⟩ := dead?_eq_some_iff.mp hd
  rw [drop, (sameSlots_detach id n.inputs).pins, pins_vacate hid hp]

omit hd in
theorem parameters_drop : (a.drop id n).parameters = a.parameters :=
  (sameSlots_detach id n.inputs).parameters

omit hd in
theorem results_drop : (a.drop id n).results = a.results :=
  (sameSlots_detach id n.inputs).results

omit hd in
theorem table_drop : (a.drop id n).table = a.table := (sameSlots_detach id n.inputs).table

theorem occupied_drop : (a.drop id n).occupied + 1 = a.occupied := by
  rw [drop, occupied_detach, occupied_vacate hd]

theorem uses_of_dead? (hv : v.node = id) : a.uses v = [] := by
  obtain ⟨hid, -, -, hunused⟩ := dead?_eq_some_iff.mp hd
  rw [uses_eq_node?, hv, hid, Option.bind_some, List.getElem?_map]
  cases ho : n.outputs[v.port]? with
  | none => rfl
  | some o => simpa using List.all_eq_true.mp hunused o (List.mem_of_getElem? ho)

include h

theorem hasOutput_vacate_of_mem (hw : v ∈ n.inputs) : (a.vacate id.index).hasOutput v = true := by
  obtain ⟨hid, -⟩ := dead?_eq_some_iff.mp hd
  obtain ⟨port, hp⟩ := List.mem_iff_getElem?.mp hw
  have hu : a.producer? (id.input port) = some v := producer?_eq_some_iff.mpr ⟨n, hid, hp⟩
  have hne : v.node ≠ id := fun he => h.acyclic id (.single (he ▸ reads_of_producer? hu))
  rw [hasOutput, output?, node?_vacate hid, if_neg hne]
  exact h.linked.hasOutput hu

theorem uses_drop : (a.drop id n).uses v =
    if v.node = id then [] else (a.uses v).filter (·.node ≠ id) := by
  obtain ⟨hid, -⟩ := dead?_eq_some_iff.mp hd
  have hin : ∀ w ∈ n.inputs, (a.vacate id.index).hasOutput w = true := fun w hw =>
    hasOutput_vacate_of_mem h hd hw
  rw [drop, uses_detach hin, uses_vacate hid]
  split
  · rfl
  · refine List.filter_congr fun u hu => ?_
    obtain ⟨m, hm, hp⟩ := producer?_eq_some_iff.mp (h.linked.mem_uses_iff.mp hu)
    have hmem : u ∈ usesAmong id n.inputs v ↔ u.node = id := by
      rw [mem_usesAmong]
      refine ⟨And.left, fun he => ⟨he, ?_⟩⟩
      rw [he, hid] at hm
      exact Option.some.inj hm ▸ hp
    simp [hmem]

theorem Linked.drop : (a.drop id n).Linked := by
  intro v u
  rw [uses_drop h hd, producer?_drop hd]
  by_cases hu : u.node = id
  · have hnot : u ∉ (a.uses v).filter (·.node ≠ id) := fun hm =>
      of_decide_eq_true (List.mem_filter.mp hm).2 hu
    simp only [hu, if_true, reduceCtorEq, if_false]
    split
    · rfl
    · exact List.count_eq_zero.mpr hnot
  · rw [if_neg hu]
    split
    · rename_i hv
      have hnot : a.producer? u ≠ some v := by
        rw [Ne, ← h.linked.mem_uses_iff, uses_of_dead? hd hv]
        exact List.not_mem_nil
      simp [hnot]
    · rw [List.count_filter (by simpa using hu), h.linked v u]

omit h in
theorem kind?_drop_of_isAnchor {kind : Kind} (hk : kind.isAnchor = true)
    (hx : a.kind? x = some kind) : (a.drop id n).kind? x = some kind := by
  obtain ⟨hid, -, hanchor, -⟩ := dead?_eq_some_iff.mp hd
  have hne : x ≠ id := by
    rintro rfl
    rw [kind?, hid, Option.map_some, Option.some.injEq] at hx
    rw [Node.isAnchor, hx, hk] at hanchor
    cases hanchor
  rw [kind?_eq_bare, bare?_drop hd, if_neg hne, ← kind?_eq_bare, hx]

theorem not_mem_free_of_dead? : id.index ∉ a.free := by
  obtain ⟨s, hs, -, hn⟩ := node?_eq_some_iff.mp (dead?_eq_some_iff.mp hd).1
  intro hi
  obtain ⟨t, ht, hnone, -⟩ := h.free_vacant _ hi
  obtain rfl : s = t := Option.some.inj (hs.symm.trans ht)
  rw [hnone] at hn
  cases hn

theorem vacant_drop {i : Nat} (hi : i ∈ id.index :: a.free) : (a.drop id n).Vacant i := by
  obtain ⟨hid, hp, -, -⟩ := dead?_eq_some_iff.mp hd
  obtain ⟨s, hs, hg, -⟩ := node?_eq_some_iff.mp hid
  refine (sameSlots_detach (a := a.vacate id.index) id n.inputs).vacant i ?_
  rcases List.mem_cons.mp hi with rfl | hi
  · have hzero := (pins_eq_zero_iff hs hg).mp hp
    exact ⟨{ s with generation := s.generation + 1, node := none },
      by simp [vacate, Array.getElem?_modify, hs], rfl, hzero⟩
  · obtain ⟨t, ht, hvacant⟩ := h.free_vacant i hi
    have hne : id.index ≠ i := fun he => not_mem_free_of_dead? h hd (he ▸ hi)
    exact ⟨t, by simp [vacate, Array.getElem?_modify, hne, ht], hvacant⟩

theorem WellFormed.drop : (a.drop id n).WellFormed := by
  have hslots := sameSlots_detach (a := a.vacate id.index) id n.inputs
  have hfree : (a.drop id n).free = id.index :: a.free := hslots.free
  constructor
  · exact .drop h hd
  · refine h.acyclic.mono fun y z hyz => ?_
    obtain ⟨u, v, hu, rfl, rfl⟩ := mem_producers_iff.mp hyz
    rw [producer?_drop hd] at hu
    split at hu
    · cases hu
    · exact reads_of_producer? hu
  · exact fun x hx => kind?_drop_of_isAnchor hd rfl (h.parameters x (parameters_drop ▸ hx))
  · exact fun x hx => kind?_drop_of_isAnchor hd rfl (h.results x (results_drop ▸ hx))
  · rw [hfree]
    exact List.nodup_cons.mpr ⟨not_mem_free_of_dead? h hd, h.free_nodup⟩
  · exact fun i hi => vacant_drop h hd (hfree ▸ hi)
  · have hlive : (a.drop id n).live = a.live - 1 := hslots.live
    have hoccupied := occupied_drop hd
    rw [hlive, h.live]
    omega

end Drop

/-! ### Releasing several nodes -/

/-- Dead nodes are released one after the other, so many in all. -/
inductive Releases (a : Arena β) : Nat → Arena β → Prop where
  | refl : Releases a 0 a
  | bump {k : Nat} {b : Arena β} : Releases a k b → Releases a k b.bump
  | drop {k : Nat} {b : Arena β} {id : NodeId} {n : Node β} : Releases a k b →
      b.dead? id = some n → Releases a (k + 1) (b.drop id n)

theorem Releases.trans {l : Nat} (h : a.Releases k b) (h' : b.Releases l c) :
    a.Releases (k + l) c := by
  induction h' with
  | refl => exact h
  | bump _ ih => exact ih.bump
  | drop _ hd ih => exact ih.drop hd

theorem releases_sweep (a : Arena β) (work : List NodeId) :
    a.Releases (a.sweep work).2 (a.sweep work).1 := by
  fun_induction sweep a work with
  | case1 a => exact .refl
  | case2 a id work hd ih => exact ih
  | case3 a id work n hd _ _ b count hb ih =>
    rw [hb] at ih
    rw [Nat.add_comm]
    exact (Releases.refl.drop hd).trans ih

theorem releases_release (a : Arena β) (id : NodeId) :
    a.Releases (a.release id).2 (a.release id).1 := by
  have h := releases_sweep a [id]
  rw [release]
  split
  rename_i b count hb
  rw [hb] at h
  dsimp only
  split
  · exact h
  · exact h.bump

theorem releases_releaseAll (a : Arena β) (ids : List NodeId) :
    a.Releases (a.releaseAll ids).2 (a.releaseAll ids).1 := by
  induction ids generalizing a with
  | nil => exact .refl
  | cons id ids ih => exact (releases_release a id).trans (ih _)

theorem releases_exhaust (a : Arena β) (ids : List NodeId) :
    a.Releases (a.exhaust ids).2 (a.exhaust ids).1 := by
  fun_induction exhaust a ids with
  | case1 a h => exact releases_releaseAll a ids
  | case2 a h _ b rest hb ih =>
    rw [hb] at ih
    exact (releases_releaseAll a ids).trans ih

theorem releases_collectGarbage (a : Arena β) :
    a.Releases a.collectGarbage.2 a.collectGarbage.1 :=
  releases_exhaust a _

theorem Releases.wellFormed (h : a.Releases k b) (ha : a.WellFormed) : b.WellFormed := by
  induction h with
  | refl => exact ha
  | bump _ ih => exact ih.bump
  | drop _ hd ih => exact ih.drop hd

theorem Releases.occupied (h : a.Releases k b) : b.occupied + k = a.occupied := by
  induction h with
  | refl => rfl
  | bump _ ih => exact ih
  | drop _ hd ih =>
    have := occupied_drop hd
    omega

theorem sweep_eq_zero {work : List NodeId} (h : (a.sweep work).2 = 0) : (a.sweep work).1 = a := by
  fun_induction sweep a work with
  | case1 a => rfl
  | case2 a id work hd ih => exact ih h
  | case3 a id work n hd _ _ b count hb ih => exact absurd h (Nat.succ_ne_zero _)

theorem release_eq_zero (h : (a.release id).2 = 0) : (a.release id).1 = a := by
  have hsweep : (a.sweep [id]).2 = 0 := h
  have hrelease : (a.release id).1 =
      if (a.sweep [id]).2 = 0 then (a.sweep [id]).1 else (a.sweep [id]).1.bump := rfl
  rw [hrelease, if_pos hsweep, sweep_eq_zero hsweep]

/-- What is left of an arena once some of its nodes are gone. -/
structure Remains (a b : Arena β) : Prop where
  bare : ∀ x, b.contains x = true → b.bare? x = a.bare? x
  uses : ∀ v, b.contains v.node = true →
    b.uses v = (a.uses v).filter fun u => b.contains u.node
  pins : b.pins = a.pins
  parameters : b.parameters = a.parameters
  results : b.results = a.results
  table : b.table = a.table
  /-- What is pinned or an anchor is not among what is gone. -/
  kept : ∀ x n, a.node? x = some n → a.pins x ≠ 0 ∨ n.isAnchor = true → b.contains x = true

theorem Remains.refl (h : a.Linked) : a.Remains a where
  bare _ _ := rfl
  uses v _ := by
    refine (List.filter_eq_self.mpr fun u hu => ?_).symm
    obtain ⟨n, hn, -⟩ := producer?_eq_some_iff.mp (h.mem_uses_iff.mp hu)
    exact contains_of_node? hn
  pins := rfl
  parameters := rfl
  results := rfl
  table := rfl
  kept _ _ hn _ := contains_of_node? hn

theorem Remains.drop (h : a.Remains b) (hb : b.WellFormed) (hd : b.dead? id = some n) :
    a.Remains (b.drop id n) where
  bare x hx := by
    rw [contains_drop hd, Bool.and_eq_true, decide_eq_true_eq] at hx
    rw [bare?_drop hd, if_neg hx.1, h.bare x hx.2]
  uses v hv := by
    rw [contains_drop hd, Bool.and_eq_true, decide_eq_true_eq] at hv
    rw [uses_drop hb hd, if_neg hv.1, h.uses v hv.2, List.filter_filter]
    refine List.filter_congr fun u _ => ?_
    rw [contains_drop hd]
  pins := (pins_drop hd).trans h.pins
  parameters := parameters_drop.trans h.parameters
  results := results_drop.trans h.results
  table := table_drop.trans h.table
  kept x m hm hkeep := by
    have hx := h.kept x m hm hkeep
    rw [contains_drop hd, hx, Bool.and_true, decide_eq_true_eq]
    rintro rfl
    obtain ⟨hid, hp, hanchor, -⟩ := dead?_eq_some_iff.mp hd
    have hkind : n.kind = m.kind := by
      have hk := congrArg (Option.map Node.kind) (h.bare x hx)
      rw [← kind?_eq_bare, ← kind?_eq_bare, kind?, hid, kind?, hm] at hk
      exact Option.some.inj hk
    rcases hkeep with hkeep | hkeep
    · exact hkeep (h.pins ▸ hp)
    · rw [Node.isAnchor, hkind] at hanchor
      exact absurd (hanchor.symm.trans hkeep) Bool.false_ne_true

theorem Releases.remains (h : a.Releases k b) (ha : a.WellFormed) : a.Remains b := by
  induction h with
  | refl => exact .refl ha.linked
  | bump _ ih => exact ⟨ih.bare, ih.uses, ih.pins, ih.parameters, ih.results, ih.table, ih.kept⟩
  | drop h hd ih => exact ih.drop (h.wellFormed ha) hd

/-! ### Pins -/

section Pins

variable (index : Nat) (f : UInt32 → UInt32)

def modifyPins (a : Arena β) : Arena β :=
  { a with slots := a.slots.modify index fun s => { s with pins := f s.pins } }

theorem node?_modifyPins : (a.modifyPins index f).node? = a.node? := by
  funext x
  simp only [node?, slot?, modifyPins, Array.getElem?_modify]
  split
  · cases a.slots[x.index]? with
    | none => rfl
    | some s => by_cases hg : s.generation = x.generation <;> simp [Option.filter, hg]
  · rfl

theorem pins_modifyPins {f : UInt32 → UInt32} {k : Nat → Nat} (hid : a.contains id = true)
    (hf : ∀ n : UInt32, n.toNat = a.pins id → (f n).toNat = k (a.pins id)) :
    (a.modifyPins id.index f).pins x = if x = id then k (a.pins id) else a.pins x := by
  obtain ⟨n, hn⟩ := contains_iff.mp hid
  obtain ⟨s, hs, hg, -⟩ := node?_eq_some_iff.mp hn
  have hpins : a.pins id = s.pins.toNat := by simp [pins, slot?, hs, hg, Option.filter]
  rw [hpins] at hf ⊢
  simp only [pins, slot?, modifyPins, Array.getElem?_modify]
  by_cases hi : id.index = x.index
  · have hx : x = id ↔ s.generation = x.generation := by
      rw [hg]
      constructor
      · rintro rfl
        rfl
      · intro h
        cases x
        cases id
        simp_all
    rw [if_pos hi, ← hi, hs]
    by_cases h : s.generation = x.generation
    · rw [if_pos (hx.mpr h)]
      simpa [Option.filter, h] using hf s.pins rfl
    · rw [if_neg fun he => h (hx.mp he)]
      simp [Option.filter, h]
  · have hx : x ≠ id := fun he => hi (he ▸ rfl)
    rw [if_neg hi, if_neg hx]

theorem WellFormed.modifyPins (h : a.WellFormed) (hid : a.contains id = true) :
    (a.modifyPins id.index f).WellFormed := by
  have hnode : (a.modifyPins id.index f).node? = a.node? := node?_modifyPins id.index f
  have hbare := bare?_of_node? hnode
  have huses := uses_of_node? hnode
  obtain ⟨n, hn⟩ := contains_iff.mp hid
  obtain ⟨s, hs, -, hsome⟩ := node?_eq_some_iff.mp hn
  exact {
    linked := linked_congr huses (producer?_congr hbare) h.linked
    acyclic := acyclic_congr (producers_congr hbare) h.acyclic
    parameters := by rw [kind?_congr hbare]; exact h.parameters
    results := by rw [kind?_congr hbare]; exact h.results
    free_nodup := h.free_nodup
    free_vacant := by
      intro i hi
      obtain ⟨t, ht, hnone, hp⟩ := h.free_vacant i hi
      have hne : id.index ≠ i := by
        rintro rfl
        obtain rfl : s = t := Option.some.inj (hs.symm.trans ht)
        rw [hnone] at hsome
        cases hsome
      exact ⟨t, by simp [Arena.modifyPins, Array.getElem?_modify, hne, ht], hnone, hp⟩
    live := by
      have hsame : (a.modifyPins id.index f).occupied = a.occupied := by
        simp [Arena.occupied, Arena.modifyPins, countP_modify_of_eq]
      rw [hsame]
      exact h.live }

end Pins

theorem pins_le_limit (x : NodeId) : a.pins x ≤ pinLimit := by
  unfold pins
  cases a.slot? x with
  | none => exact Nat.zero_le _
  | some s => exact Nat.le_sub_one_of_lt s.pins.toNat_lt

theorem pins_raised (hid : a.contains id = true) (hlt : a.pins id < pinLimit) :
    (a.modifyPins id.index (· + 1)).pins x = if x = id then a.pins id + 1 else a.pins x := by
  refine pins_modifyPins (k := (· + 1)) hid fun n hn => ?_
  rw [UInt32.toNat_add, hn]
  exact Nat.mod_eq_of_lt (Nat.add_lt_of_lt_sub hlt)

theorem toNat_dropPin (n : UInt32) : (dropPin n).toNat = n.toNat - 1 := by
  unfold dropPin
  split
  · rename_i h
    rw [h]
    rfl
  · rename_i h
    have hpos : 1 ≤ n.toNat := Nat.one_le_iff_ne_zero.mpr fun hz => h (UInt32.toNat_inj.mp hz)
    exact UInt32.toNat_sub_of_le n 1 (UInt32.le_iff_toNat_le.mpr hpos)

theorem pins_dropped (hid : a.contains id = true) :
    (a.modifyPins id.index dropPin).pins x = if x = id then a.pins id - 1 else a.pins x :=
  pins_modifyPins (k := (· - 1)) hid fun n hn => by rw [toNat_dropPin, hn]

theorem pin_eq_ok_iff : a.pin id = .ok b ↔
    (a.contains id = true ∧ a.pins id < pinLimit) ∧ b = a.modifyPins id.index (· + 1) := by
  unfold pin
  split
  · rename_i h
    split
    · rename_i hlt
      exact ⟨fun e => ⟨⟨h, hlt⟩, (Except.ok.inj e).symm⟩, fun e => congrArg _ e.2.symm⟩
    · rename_i hlt
      exact ⟨nofun, fun e => absurd e.1.2 hlt⟩
  · rename_i h
    exact ⟨nofun, fun e => absurd e.1.1 h⟩

theorem unpin_eq_ok_iff {done : Arena β × Nat} : a.unpin id = .ok done ↔
    a.contains id = true ∧ done = (a.modifyPins id.index dropPin).release id := by
  unfold unpin
  split
  · rename_i h
    exact ⟨fun e => ⟨h, (Except.ok.inj e).symm⟩, fun e => congrArg _ e.2.symm⟩
  · rename_i h
    exact ⟨nofun, fun e => absurd e.1 h⟩

theorem WellFormed.pin (h : a.WellFormed) (e : a.pin id = .ok b) : b.WellFormed := by
  obtain ⟨⟨hid, -⟩, rfl⟩ := pin_eq_ok_iff.mp e
  exact h.modifyPins _ hid

theorem WellFormed.unpin (h : a.WellFormed) (e : a.unpin id = .ok (b, k)) : b.WellFormed := by
  obtain ⟨hid, he⟩ := unpin_eq_ok_iff.mp e
  have hr := releases_release (a.modifyPins id.index dropPin) id
  rw [← he] at hr
  exact hr.wellFormed (h.modifyPins _ hid)

end TensorGraph.Arena
