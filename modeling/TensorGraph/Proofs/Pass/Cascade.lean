import TensorGraph.Proofs.Arena.Retention
import TensorGraph.Proofs.Pass.Unpinning

/-! # Cascades

Why a node was released: it was named as a candidate, or it was read by a node that was released.
The readers of a node cannot be followed upwards for ever, so every release starts at a candidate.
-/

namespace TensorGraph

namespace Arena

variable {β : Type} {a b c : Arena β} {x id : NodeId} {work ids seeds later : List NodeId} {k : Nat}

/-- One arena is what releases left of the other. They started at the given nodes and went on to
what the released nodes had read. -/
structure Cascade (a b : Arena β) (seeds : List NodeId) : Prop where
  part : a.Part b
  cause : ∀ x, a.contains x = true → ¬ b.contains x = true →
    x ∈ seeds ∨ ∃ y, a.Reads y x ∧ ¬ b.contains y = true

namespace Cascade

theorem refl (ha : a.WellFormed) : a.Cascade a [] := ⟨.refl ha, fun _ hx hgone => absurd hx hgone⟩

theorem trans (h : a.Cascade b seeds) (h' : b.Cascade c later) : a.Cascade c (seeds ++ later) := by
  refine ⟨h.part.trans h'.part, fun x hx hgone => ?_⟩
  by_cases hb : b.contains x = true
  · rcases h'.cause x hb hgone with hseed | ⟨y, hread, hy⟩
    · exact .inl (List.mem_append_right _ hseed)
    · exact .inr ⟨y, h.part.reads hread, hy⟩
  · rcases h.cause x hx hb with hseed | ⟨y, hread, hy⟩
    · exact .inl (List.mem_append_left _ hseed)
    · exact .inr ⟨y, hread, mt h'.part.contains hy⟩

theorem bump (h : a.Cascade b seeds) : a.Cascade b.bump seeds :=
  ⟨⟨h.part.wellFormed.bump, h.part.bare, h.part.table⟩, h.cause⟩

/-- What holds of the nodes at which releases start, and passes from readers to what they read,
holds of everything that was released. -/
theorem induction {P : NodeId → Prop} (h : a.Cascade b seeds) (ha : a.WellFormed)
    (hseed : ∀ x ∈ seeds, a.contains x = true → ¬ b.contains x = true → P x)
    (hread : ∀ x y, a.Reads y x → ¬ b.contains y = true → ¬ b.contains x = true → P y → P x)
    (hx : a.contains x = true) (hgone : ¬ b.contains x = true) : P x := by
  by_contra hP
  refine ha.not_of_read
    (S := fun x => a.contains x = true ∧ ¬ b.contains x = true ∧ ¬ P x) ?_ x ⟨hx, hgone, hP⟩
  rintro x ⟨hx, hgone, hP⟩
  rcases h.cause x hx hgone with hmem | ⟨y, hy, hgone'⟩
  · exact absurd (hseed x hmem hx hgone) hP
  · exact ⟨y, ⟨contains_of_reads_left hy, hgone', mt (hread x y hy hgone' hgone) hP⟩, hy⟩

end Cascade

theorem cascade_sweep (ha : a.WellFormed) (work : List NodeId) :
    a.Cascade (a.sweep work).1 work := by
  refine ⟨(releases_sweep a work).part ha, fun x hx hgone => ?_⟩
  fun_induction Arena.sweep a work with
  | case1 a => exact absurd hx hgone
  | case2 a id work hd ih => exact (ih ha hx hgone).imp_left (List.mem_cons_of_mem _)
  | case3 a id work n hd _ _ b count hb ih =>
    have hpart := (releases_sweep (a.drop id n) ((n.inputs.map Value.node).reverse ++ work)).part
      (ha.drop hd)
    rw [drop, hb] at hpart
    by_cases hid : x = id
    · exact .inl (hid ▸ List.mem_cons_self)
    have hdrop : (a.drop id n).contains x = true := by
      rw [contains_drop hd, hx, Bool.and_true, decide_eq_true_eq]
      exact hid
    rw [hb] at ih
    rcases ih (ha.drop hd) hdrop hgone with hmem | ⟨y, hread, hy⟩
    · rcases List.mem_append.mp hmem with hin | hwork
      · refine .inr ⟨id, ?_, fun hc => ?_⟩
        · rw [Reads, producers_of_node? (dead?_eq_some_iff.mp hd).1]
          exact List.mem_reverse.mp hin
        · have hleft : (a.drop id n).contains id = true := hpart.contains hc
          rw [contains_drop hd] at hleft
          simp at hleft
      · exact .inl (List.mem_cons_of_mem _ hwork)
    · exact .inr ⟨y, ((reads_drop_iff hd).mp hread).2, hy⟩

theorem cascade_release (ha : a.WellFormed) (id : NodeId) : a.Cascade (a.release id).1 [id] := by
  have hsweep := cascade_sweep ha [id]
  have hrelease : (a.release id).1 =
      if (a.sweep [id]).2 = 0 then (a.sweep [id]).1 else (a.sweep [id]).1.bump := rfl
  rw [hrelease]
  split
  · exact hsweep
  · exact hsweep.bump

theorem cascade_releaseAll (ha : a.WellFormed) (ids : List NodeId) :
    a.Cascade (a.releaseAll ids).1 ids := by
  induction ids generalizing a with
  | nil => exact .refl ha
  | cons id ids ih =>
    have hfirst := cascade_release ha id
    exact hfirst.trans (ih hfirst.part.wellFormed)

theorem Cascade.unpin (ha : a.WellFormed) (e : a.unpin id = .ok (b, k)) : a.Cascade b [id] := by
  obtain ⟨hid, he⟩ := unpin_eq_ok_iff.mp e
  have hrelease := cascade_release (ha.modifyPins dropPin hid) id
  obtain rfl : b = _ := congrArg Prod.fst he
  have hbare : (a.modifyPins id.index dropPin).bare? = a.bare? :=
    funext fun x => by rw [bare?, node?_modifyPins, bare?]
  refine ⟨⟨hrelease.part.wellFormed, fun x hx => ?_, hrelease.part.table⟩, fun x hx hgone => ?_⟩
  · rw [hrelease.part.bare x hx, hbare]
  · rw [← contains_modifyPins id.index dropPin] at hx
    rcases hrelease.cause x hx hgone with hmem | ⟨y, hread, hy⟩
    · exact .inl hmem
    · rw [Reads, producers_congr hbare] at hread
      exact .inr ⟨y, hread, hy⟩

end Arena

namespace PatternPass

open Arena

variable {g h : Graph}

theorem cascade_unpinAll (hg : g.WellFormed) (ids : List NodeId) :
    g.Cascade (unpinAll g ids).1 ids := by
  induction ids generalizing g with
  | nil => exact .refl hg
  | cons id ids ih =>
    cases e : g.unpin id with
    | ok done =>
      obtain ⟨h, k⟩ := done
      have hfirst := Cascade.unpin hg e
      rw [unpinAll_cons_ok e]
      exact hfirst.trans (ih hfirst.part.wellFormed)
    | error f =>
      have hrest := ih hg
      rw [unpinAll_cons_error e]
      exact ⟨hrest.part, fun x hx hgone =>
        (hrest.cause x hx hgone).imp_left (List.mem_cons_of_mem _)⟩

end PatternPass

end TensorGraph
