import TensorGraph.Proofs.Rewrite.Edits

/-! # Generations

Only a release changes the generation of a slot. So a handle that was released names nothing as
long as its slot is not released once more, even if another node is in the slot by then, and after
fewer releases than there are generations it names nothing at any time.
-/

namespace TensorGraph.Arena

variable {β : Type} {a b c : Arena β} {x y id : NodeId} {n : Node β} {p : Plan β} {i k : Nat}

def generation? (a : Arena β) (index : Nat) : Option UInt32 :=
  a.slots[index]?.map Slot.generation

/-- The handle was released, and its slot has not been released since. -/
def Past (a : Arena β) (x : NodeId) : Prop := a.generation? x.index = some (x.generation + 1)

theorem generation?_of_contains (hx : a.contains x = true) :
    a.generation? x.index = some x.generation := by
  obtain ⟨n, hn⟩ := contains_iff.mp hx
  obtain ⟨s, hs, hgen, -⟩ := node?_eq_some_iff.mp hn
  simp [generation?, hs, hgen]

theorem Past.not_contains (h : a.Past x) : ¬ a.contains x = true := by
  intro hx
  have hgen : x.generation = x.generation + 1 :=
    Option.some.inj ((generation?_of_contains hx).symm.trans h)
  simp at hgen

/-! ### Edits -/

/-- Slots have the same generations after an edit, which may add slots. -/
def KeepsGenerations (a b : Arena β) : Prop :=
  ∀ i gen, a.generation? i = some gen → b.generation? i = some gen

namespace KeepsGenerations

theorem refl (a : Arena β) : a.KeepsGenerations a := fun _ _ h => h

theorem trans (h : a.KeepsGenerations b) (h' : b.KeepsGenerations c) : a.KeepsGenerations c :=
  fun i gen hi => h' i gen (h i gen hi)

theorem generation?_modifyNode (a : Arena β) (j : Nat) (f : Node β → Node β) :
    (a.modifyNode j f).generation? i = a.generation? i := by
  simp only [generation?, Arena.modifyNode, Array.getElem?_modify]
  split
  · rw [Option.map_map]
    rfl
  · rfl

theorem modifyNode (a : Arena β) (j : Nat) (f : Node β → Node β) :
    a.KeepsGenerations (a.modifyNode j f) :=
  fun _ _ h => (generation?_modifyNode a j f).trans h

theorem allocate (a : Arena β) (n : Node β) : a.KeepsGenerations (a.allocate n).1 := by
  intro i gen hi
  unfold Arena.allocate
  split
  · rename_i index free _
    simp only [generation?, Array.getElem?_modify]
    split
    · rw [Option.map_map]
      exact hi
    · exact hi
  · have hlt : i < a.slots.size := by
      by_contra hge
      simp [generation?, Array.getElem?_eq_none (Nat.le_of_not_lt hge)] at hi
    simp only [generation?, Array.getElem?_push, hlt.ne, if_false]
    exact hi

theorem keptByEdits (a : Arena β) : KeptByEdits a.KeepsGenerations where
  allocate b n h := h.trans (allocate b n)
  modifyNode b i f h := h.trans (modifyNode b i f)
  bump _ h := h
  enlist b kind id h := by
    unfold enlist
    split <;> exact h

theorem rewire (a : Arena β) (p : Plan β) : a.KeepsGenerations (a.rewire p).1 :=
  (keptByEdits a).rewire (refl a) p

end KeepsGenerations

/-! ### Releases -/

theorem generation?_drop (id : NodeId) (n : Node β) : (a.drop id n).generation? i =
    if i = id.index then (a.generation? i).map (· + 1) else a.generation? i := by
  have hdetach (inputs : List (Value × Nat)) (b : Arena β) :
      (inputs.foldl (fun b x => b.removeUse x.1 (id.input x.2)) b).generation? i =
        b.generation? i := by
    induction inputs generalizing b with
    | nil => rfl
    | cons x inputs ih => exact (ih _).trans (KeepsGenerations.generation?_modifyNode b _ _)
  have hvacate : (a.drop id n).generation? i = (a.vacate id.index).generation? i := hdetach _ _
  rw [hvacate]
  simp only [generation?, vacate, Array.getElem?_modify, eq_comm (a := id.index)]
  split
  · simp [Option.map_map, Function.comp_def]
  · rfl

/-- The slot of a released node has the next generation and is vacant. -/
theorem Releases.past (h : a.Releases k b) (hx : a.contains x = true)
    (hx' : ¬ b.contains x = true) :
    b.Past x ∧ ∀ y, y.index = x.index → ¬ b.contains y = true := by
  induction h with
  | refl => exact absurd hx hx'
  | bump _ ih => exact ih hx'
  | @drop k b id n h hd ih =>
    have hid : b.contains id = true := contains_of_node? (dead?_eq_some_iff.mp hd).1
    by_cases hb : b.contains x = true
    · obtain rfl : x = id := by
        by_contra hne
        apply hx'
        simp [contains_drop hd, hne, hb]
      constructor
      · rw [Past, generation?_drop, if_pos rfl, generation?_of_contains hb]
        rfl
      · intro y hy hlive
        rw [contains_drop hd, Bool.and_eq_true, decide_eq_true_eq] at hlive
        exact hlive.1 (eq_of_contains_index hlive.2 hb hy)
    · obtain ⟨hpast, hnone⟩ := ih hb
      have hne : x.index ≠ id.index := fun he => hnone id he.symm hid
      constructor
      · rw [Past, generation?_drop, if_neg hne]
        exact hpast
      · intro y hy hlive
        rw [contains_drop hd, Bool.and_eq_true] at hlive
        exact hnone y hy hlive.2

theorem Releases.generation?_eq (h : a.Releases k b) (ha : a.WellFormed)
    (hkeep : ∀ y, y.index = i → a.contains y = true → b.contains y = true) :
    b.generation? i = a.generation? i := by
  induction h with
  | refl => rfl
  | bump _ ih => exact ih hkeep
  | @drop k b id n h hd ih =>
    have hne : i ≠ id.index := by
      rintro rfl
      have hid : b.contains id = true := contains_of_node? (dead?_eq_some_iff.mp hd).1
      have hold : a.contains id = true := by
        rw [contains_eq_bare, ← (h.remains ha).bare id hid, ← contains_eq_bare, hid]
      have hlive := hkeep id rfl hold
      simp [contains_drop hd] at hlive
    rw [generation?_drop, if_neg hne]
    apply ih
    intro y hy hlive
    have hlive := hkeep y hy hlive
    rw [contains_drop hd, Bool.and_eq_true] at hlive
    exact hlive.2

/-! ### Ages -/

/-- The releases of a slot between two arenas are so many at most. A slot without any has its node
still. -/
def Ages (a : Arena β) (k : Nat) (b : Arena β) : Prop :=
  ∀ i gen, a.generation? i = some gen → ∃ j ≤ k, b.generation? i = some (gen + .ofNat j) ∧
    (j = 0 → ∀ x, x.index = i → a.contains x = true → b.contains x = true)

theorem KeepsGenerations.ages (h : a.KeepsGenerations b)
    (hlive : ∀ x, a.contains x = true → b.contains x = true) : a.Ages 0 b := by
  intro i gen hi
  refine ⟨0, le_rfl, ?_, fun _ x _ => hlive x⟩
  rw [h i gen hi]
  exact congrArg some (UInt32.add_zero gen).symm

namespace Ages

theorem refl (a : Arena β) : a.Ages 0 a := (KeepsGenerations.refl a).ages fun _ hx => hx

theorem trans {l : Nat} (h : a.Ages k b) (h' : b.Ages l c) : a.Ages (k + l) c := by
  intro i gen hi
  obtain ⟨j, hj, hb, hlive⟩ := h i gen hi
  obtain ⟨j', hj', hc, hlive'⟩ := h' i _ hb
  refine ⟨j + j', Nat.add_le_add hj hj', ?_, fun hz x hx hcontains => ?_⟩
  · rw [hc, UInt32.ofNat_add, UInt32.add_assoc]
  · obtain ⟨hz, hz'⟩ := Nat.add_eq_zero_iff.mp hz
    exact hlive' hz' x hx (hlive hz x hx hcontains)

theorem drop (hd : a.dead? id = some n) : a.Ages 1 (a.drop id n) := by
  intro i gen hi
  by_cases he : i = id.index
  · refine ⟨1, le_rfl, ?_, fun hz => absurd hz Nat.one_ne_zero⟩
    rw [generation?_drop, if_pos he, hi]
    rfl
  · refine ⟨0, Nat.zero_le 1, ?_, fun _ x hx hlive => ?_⟩
    · rw [generation?_drop, if_neg he, hi]
      exact congrArg some (UInt32.add_zero gen).symm
    · have hne : x ≠ id := fun hx' => he (hx ▸ congrArg NodeId.index hx')
      simp [contains_drop hd, hne, hlive]

/-- A handle that was released stays past as long as its slot cannot have come round. -/
theorem not_contains {l : Nat} (h : a.Ages k b) (h' : b.Ages l c) (hlt : k + l < UInt32.size)
    (hx : a.contains x = true) (hgone : ¬ b.contains x = true) : ¬ c.contains x = true := by
  intro hback
  obtain ⟨j, hj, hb, hlive⟩ := h _ _ (generation?_of_contains hx)
  obtain ⟨j', hj', hc, -⟩ := h' _ _ hb
  have hpos : j ≠ 0 := fun hz => hgone (hlive hz x rfl hx)
  have hsame : x.generation + .ofNat j + .ofNat j' = x.generation :=
    Option.some.inj (hc.symm.trans (generation?_of_contains hback))
  rw [UInt32.add_assoc, ← UInt32.ofNat_add, UInt32.add_eq_left] at hsame
  have hzero := congrArg UInt32.toNat hsame
  rw [UInt32.toNat_ofNat_of_lt' (by omega)] at hzero
  exact hpos (Nat.add_eq_zero_iff.mp hzero).1

end Ages

theorem Releases.ages (h : a.Releases k b) : a.Ages k b := by
  induction h with
  | refl => exact .refl a
  | bump _ ih => exact ih
  | drop _ hd ih => exact ih.trans (.drop hd)

theorem generation?_modifyPins (i j : Nat) (f : UInt32 → UInt32) :
    (a.modifyPins j f).generation? i = a.generation? i := by
  simp only [generation?, modifyPins, Array.getElem?_modify]
  split
  · rw [Option.map_map]
    rfl
  · rfl

/-! ### Commits -/

theorem past_apply (ha : a.WellFormed) (hp : p.Accepted a) (hx : a.contains x = true)
    (hx' : ¬ (a.apply p).1.contains x = true) : (a.apply p).1.Past x := by
  have hlive := (rewired_rewire ha hp).contains_iff.mpr (.inr hx)
  rw [apply_eq] at hx' ⊢
  exact ((releases_released a p).past hlive hx').1

/-- A handle stays past if a commit releases nothing of its slot. -/
theorem Past.apply (h : a.Past x) (ha : a.WellFormed) (hp : p.Accepted a)
    (hkeep : ∀ y, y.index = x.index → y ∈ (a.rewire p).2 ∨ a.contains y = true →
      (a.apply p).1.contains y = true) : (a.apply p).1.Past x := by
  have hr := rewired_rewire ha hp
  have hrewire : (a.rewire p).1.Past x := KeepsGenerations.rewire a p _ _ h
  rw [apply_eq] at hkeep ⊢
  refine ((releases_released a p).generation?_eq hr.wellFormed ?_).trans hrewire
  intro y hy hlive
  exact hkeep y hy (hr.contains_iff.mp hlive)

theorem ages_apply (ha : a.WellFormed) (hp : p.Accepted a) :
    a.Ages (a.apply p).2.released (a.apply p).1 := by
  have hrewire : a.Ages 0 (a.rewire p).1 := (KeepsGenerations.rewire a p).ages fun _ hx =>
    (rewired_rewire ha hp).contains_iff.mpr (.inr hx)
  have hreleased := hrewire.trans (releases_released a p).ages
  rw [Nat.zero_add] at hreleased
  rw [apply_eq]
  exact hreleased

end TensorGraph.Arena
