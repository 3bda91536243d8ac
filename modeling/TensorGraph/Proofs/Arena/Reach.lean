import TensorGraph.Proofs.Arena.WellFormed

/-! # Reachability

A closure holds the points of the work list that lie in the domain, is closed under successors
in the domain, and is the least such list.
-/

namespace TensorGraph

section Closure

variable {α : Type} [DecidableEq α] {next : α → List α} {domain work : List α} {x y : α}

theorem mem_domain_of_mem_closure (h : x ∈ closure next domain work) : x ∈ domain := by
  fun_induction closure next domain work with
  | case1 => exact absurd h List.not_mem_nil
  | case2 domain z work hz _ _ ih =>
    rcases List.mem_cons.mp h with rfl | h
    · exact hz
    · exact List.mem_of_mem_erase (ih h)
  | case3 domain z work hz ih => exact ih h

theorem mem_closure_of_mem_work (hx : x ∈ work) (hd : x ∈ domain) :
    x ∈ closure next domain work := by
  fun_induction closure next domain work with
  | case1 => exact absurd hx List.not_mem_nil
  | case2 domain z work hz _ _ ih =>
    by_cases hxz : x = z
    · exact hxz ▸ List.mem_cons_self
    · refine List.mem_cons_of_mem _ (ih (List.mem_append_right _ ?_) ?_)
      · exact (List.mem_cons.mp hx).resolve_left hxz
      · exact (List.mem_erase_of_ne hxz).mpr hd
  | case3 domain z work hz ih =>
    rcases List.mem_cons.mp hx with rfl | hx
    · exact absurd hd hz
    · exact ih hx hd

theorem closure_closed (hx : x ∈ closure next domain work) (hy : y ∈ next x) (hd : y ∈ domain) :
    y ∈ closure next domain work := by
  fun_induction closure next domain work with
  | case1 => exact absurd hx List.not_mem_nil
  | case2 domain z work hz _ _ ih =>
    by_cases hyz : y = z
    · exact hyz ▸ List.mem_cons_self
    · have hd' : y ∈ domain.erase z := (List.mem_erase_of_ne hyz).mpr hd
      refine List.mem_cons_of_mem _ ?_
      rcases List.mem_cons.mp hx with rfl | hx
      · exact mem_closure_of_mem_work (List.mem_append_left _ hy) hd'
      · exact ih hx hd'
  | case3 domain z work hz ih => exact ih hx hd

theorem closure_induction {p : α → Prop} (hwork : ∀ x ∈ work, x ∈ domain → p x)
    (hnext : ∀ x y, p x → y ∈ next x → y ∈ domain → p y) (hx : x ∈ closure next domain work) :
    p x := by
  fun_induction closure next domain work with
  | case1 => exact absurd hx List.not_mem_nil
  | case2 domain z work hz _ _ ih =>
    have hpz : p z := hwork z List.mem_cons_self hz
    rcases List.mem_cons.mp hx with rfl | hx
    · exact hpz
    · refine ih (fun w hw hd => ?_) (fun v w hv hw hd => ?_) hx
      · rcases List.mem_append.mp hw with hw | hw
        · exact hnext z w hpz hw (List.mem_of_mem_erase hd)
        · exact hwork w (List.mem_cons_of_mem _ hw) (List.mem_of_mem_erase hd)
      · exact hnext v w hv hw (List.mem_of_mem_erase hd)
  | case3 domain z work hz ih =>
    exact ih (fun w hw => hwork w (List.mem_cons_of_mem _ hw)) hnext hx

end Closure

namespace Arena

variable {β : Type} {a : Arena β} {x y : NodeId} {roots : List NodeId}

theorem contains_of_mem_ancestors (h : x ∈ a.ancestors roots) : a.contains x = true :=
  mem_nodeIds_iff_contains.mp (mem_domain_of_mem_closure h)

theorem mem_ancestors_of_mem (h : x ∈ roots) (hx : a.contains x = true) :
    x ∈ a.ancestors roots :=
  mem_closure_of_mem_work h (mem_nodeIds_iff_contains.mpr hx)

theorem exists_root_of_mem_ancestors (h : x ∈ a.ancestors roots) :
    ∃ root ∈ roots, Relation.ReflTransGen a.Reads root x := by
  refine closure_induction (p := fun x => ∃ root ∈ roots, Relation.ReflTransGen a.Reads root x)
    (fun root hroot _ => ⟨root, hroot, .refl⟩) (fun x y hx hxy _ => ?_) h
  obtain ⟨root, hroot, hpath⟩ := hx
  exact ⟨root, hroot, hpath.tail hxy⟩

theorem ancestors_closed (ha : a.Linked) (h : x ∈ a.ancestors roots) (hr : a.Reads x y) :
    y ∈ a.ancestors roots :=
  closure_closed h hr (mem_nodeIds_iff_contains.mpr (ha.contains_of_reads hr))

end Arena

end TensorGraph
