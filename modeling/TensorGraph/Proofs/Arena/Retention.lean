import TensorGraph.Proofs.Arena.Release

/-! # What releases leave alone

Releases that start inside a set of nodes stay inside, as long as everything that the set reads
from outside is also read by a node outside. A node that is read by a live one is not dead.
-/

namespace TensorGraph.Arena

variable {β : Type} {a b : Arena β} {x y z id : NodeId} {n : Node β} {work rest ids : List NodeId}
variable {S : NodeId → Prop}

/-- A node outside of the set reads it. -/
def HeldBeyond (a : Arena β) (S : NodeId → Prop) (x : NodeId) : Prop := ∃ y, ¬ S y ∧ a.Reads y x

/-- What is to be released, and what the set reads, lies in the set or is held beyond it. -/
structure Confined (a : Arena β) (S : NodeId → Prop) (work : List NodeId) : Prop where
  start : ∀ x ∈ work, S x ∨ a.HeldBeyond S x
  closed : ∀ y z, S y → a.Reads y z → S z ∨ a.HeldBeyond S z

theorem not_reads_of_dead? (ha : a.WellFormed) (hd : a.dead? id = some n) : ¬ a.Reads y id := by
  intro hr
  obtain ⟨u, v, hu, -, hv⟩ := mem_producers_iff.mp hr
  have hmem := ha.linked.mem_uses_iff.mpr hu
  rw [uses_of_dead? hd hv] at hmem
  exact absurd hmem List.not_mem_nil

theorem reads_drop_iff (hd : a.dead? id = some n) :
    (a.drop id n).Reads y z ↔ y ≠ id ∧ a.Reads y z := by
  rw [Reads, producers_eq_bare, bare?_drop hd, Reads, producers_eq_bare]
  by_cases hy : y = id <;> simp [hy]

theorem HeldBeyond.drop (h : a.HeldBeyond S x) (hid : S id) (hd : a.dead? id = some n) :
    (a.drop id n).HeldBeyond S x := by
  obtain ⟨y, hy, hr⟩ := h
  refine ⟨y, hy, (reads_drop_iff hd).mpr ⟨?_, hr⟩⟩
  rintro rfl
  exact hy hid

theorem Confined.mem_of_dead? (h : a.Confined S (id :: work)) (ha : a.WellFormed)
    (hd : a.dead? id = some n) : S id := by
  rcases h.start id List.mem_cons_self with hid | ⟨y, -, hr⟩
  · exact hid
  · exact absurd hr (not_reads_of_dead? ha hd)

theorem Confined.drop (h : a.Confined S (id :: work)) (ha : a.WellFormed)
    (hd : a.dead? id = some n) :
    (a.drop id n).Confined S ((n.inputs.map Value.node).reverse ++ work) := by
  have hid := h.mem_of_dead? ha hd
  constructor
  · intro x hx
    rcases List.mem_append.mp hx with hx | hx
    · have hr : a.Reads id x := by
        rw [Reads, producers_of_node? (dead?_eq_some_iff.mp hd).1]
        exact List.mem_reverse.mp hx
      exact (h.closed id x hid hr).imp_right fun hheld => hheld.drop hid hd
    · exact (h.start x (List.mem_cons_of_mem _ hx)).imp_right fun hheld => hheld.drop hid hd
  · intro y z hy hr
    have hr := ((reads_drop_iff hd).mp hr).2
    exact (h.closed y z hy hr).imp_right fun hheld => hheld.drop hid hd

/-- A sweep over a confined list keeps every node outside of the set. -/
theorem Confined.sweep (h : a.Confined S (work ++ rest)) (ha : a.WellFormed) :
    (a.sweep work).1.Confined S rest ∧
      ∀ x, a.contains x = true → ¬ S x → (a.sweep work).1.contains x = true := by
  fun_induction Arena.sweep a work with
  | case1 a => exact ⟨h, fun x hx _ => hx⟩
  | case2 a id work hd ih =>
    exact ih ⟨fun x hx => h.start x (List.mem_cons_of_mem _ hx), h.closed⟩ ha
  | case3 a id work n hd _ _ b count hb ih =>
    have hrest := ih (by rw [List.append_assoc]; exact h.drop ha hd) (ha.drop hd)
    rw [hb] at hrest
    refine ⟨hrest.1, fun x hx hS => hrest.2 x ?_ hS⟩
    have hne : x ≠ id := by
      rintro rfl
      exact hS (h.mem_of_dead? ha hd)
    have hdrop : (a.drop id n).contains x = true := by
      rw [contains_drop hd, hx, Bool.and_true, decide_eq_true_eq]
      exact hne
    exact hdrop

theorem Confined.release (h : a.Confined S (id :: rest)) (ha : a.WellFormed) :
    (a.release id).1.Confined S rest ∧
      ∀ x, a.contains x = true → ¬ S x → (a.release id).1.contains x = true := by
  have hstart : a.Confined S ([id] ++ rest) := h
  have hsweep := hstart.sweep ha
  unfold Arena.release
  split
  rename_i b count hb
  rw [hb] at hsweep
  dsimp only
  split
  · exact hsweep
  · exact ⟨⟨hsweep.1.start, hsweep.1.closed⟩, hsweep.2⟩

theorem Confined.contains_releaseAll (h : a.Confined S ids) (ha : a.WellFormed)
    (hx : a.contains x = true) (hS : ¬ S x) : (a.releaseAll ids).1.contains x = true := by
  induction ids generalizing a with
  | nil => exact hx
  | cons id ids ih =>
    obtain ⟨hrest, hkeep⟩ := Confined.release h ha
    exact ih hrest ((releases_release a id).wellFormed ha) (hkeep x hx hS)

end TensorGraph.Arena
