import Mathlib.Data.List.Nodup
import Mathlib.Tactic.ByContra
import TensorGraph.Graph.Validity
import TensorGraph.Graph.Reach

/-! # Reading an arena

What the reading functions say of a node, and how they change when a single node does. A live
handle is determined by its slot.
-/

namespace TensorGraph.Arena

variable {β : Type} {a : Arena β} {x y id : NodeId} {n m : Node β} {v w : Value} {u : Use}

theorem node?_eq_some_iff :
    a.node? id = some n ↔
      ∃ s, a.slots[id.index]? = some s ∧ s.generation = id.generation ∧ s.node = some n := by
  simp only [node?, slot?, Option.bind_eq_some_iff, Option.filter_eq_some_iff, beq_iff_eq]
  exact ⟨fun ⟨s, ⟨hs, hg⟩, hn⟩ => ⟨s, hs, hg, hn⟩, fun ⟨s, hs, hg, hn⟩ => ⟨s, ⟨hs, hg⟩, hn⟩⟩

theorem eq_of_node?_index (hx : a.node? x = some n) (hy : a.node? y = some m)
    (h : x.index = y.index) : x = y := by
  obtain ⟨s, hs, hg, -⟩ := node?_eq_some_iff.mp hx
  obtain ⟨t, ht, hg', -⟩ := node?_eq_some_iff.mp hy
  obtain rfl : s = t := Option.some.inj (hs.symm.trans (h ▸ ht))
  cases x
  cases y
  simp_all

theorem contains_iff : a.contains id = true ↔ ∃ n, a.node? id = some n :=
  Option.isSome_iff_exists

theorem contains_of_node? (h : a.node? id = some n) : a.contains id = true :=
  contains_iff.mpr ⟨n, h⟩

theorem node?_eq_none (h : ¬ a.contains id = true) : a.node? id = none := by
  simpa [contains] using h

theorem kind?_eq_some_iff {kind : Kind} :
    a.kind? id = some kind ↔ ∃ n, a.node? id = some n ∧ n.kind = kind :=
  Option.map_eq_some_iff

theorem contains_of_kind? {kind : Kind} (h : a.kind? id = some kind) : a.contains id = true := by
  obtain ⟨n, hn, -⟩ := kind?_eq_some_iff.mp h
  exact contains_of_node? hn

theorem producer?_eq_some_iff :
    a.producer? u = some v ↔ ∃ n, a.node? u.node = some n ∧ n.inputs[u.port]? = some v := by
  simp [producer?, Option.bind_eq_some_iff]

theorem output?_eq_some_iff {o : Output} :
    a.output? v = some o ↔ ∃ n, a.node? v.node = some n ∧ n.outputs[v.port]? = some o := by
  simp [output?, Option.bind_eq_some_iff]

theorem hasOutput_iff :
    a.hasOutput v = true ↔ ∃ n, a.node? v.node = some n ∧ v.port < n.outputs.length := by
  simp only [hasOutput, Option.isSome_iff_exists, output?_eq_some_iff]
  constructor
  · rintro ⟨o, n, hn, ho⟩
    exact ⟨n, hn, (List.getElem?_eq_some_iff.mp ho).1⟩
  · rintro ⟨n, hn, hlt⟩
    exact ⟨_, n, hn, List.getElem?_eq_getElem hlt⟩

theorem contains_of_hasOutput (h : a.hasOutput v = true) : a.contains v.node = true := by
  obtain ⟨n, hn, -⟩ := hasOutput_iff.mp h
  exact contains_of_node? hn

theorem uses_of_output? {o : Output} (h : a.output? v = some o) : a.uses v = o.uses := by
  simp [uses, h]

theorem uses_eq_nil (h : ¬ a.hasOutput v = true) : a.uses v = [] := by
  have hn : a.output? v = none := by simpa [hasOutput] using h
  simp [uses, hn]

theorem hasOutput_of_mem_uses (h : u ∈ a.uses v) : a.hasOutput v = true := by
  by_contra hn
  simp [uses_eq_nil hn] at h

theorem mem_producers_iff :
    y ∈ a.producers x ↔ ∃ u v, a.producer? u = some v ∧ u.node = x ∧ v.node = y := by
  constructor
  · intro h
    cases hx : a.node? x with
    | none => simp [producers, hx] at h
    | some n =>
      simp only [producers, hx, Option.map_some, Option.getD_some, List.mem_map] at h
      obtain ⟨v, hv, rfl⟩ := h
      obtain ⟨port, hp⟩ := List.mem_iff_getElem?.mp hv
      exact ⟨x.input port, v, producer?_eq_some_iff.mpr ⟨n, hx, hp⟩, rfl, rfl⟩
  · rintro ⟨u, v, hu, rfl, rfl⟩
    obtain ⟨n, hn, hp⟩ := producer?_eq_some_iff.mp hu
    simp only [producers, hn, Option.map_some, Option.getD_some]
    exact List.mem_map_of_mem (List.mem_of_getElem? hp)

theorem producers_of_node? (h : a.node? x = some n) :
    a.producers x = n.inputs.map Value.node := by
  simp [producers, h]

theorem mem_nodeIds_iff : id ∈ a.nodeIds ↔ ∃ n, a.node? id = some n := by
  simp only [nodeIds, List.mem_filterMap, Option.map_eq_some_iff, Prod.exists,
    List.mem_zipIdx_iff_getElem?, Array.getElem?_toList, node?_eq_some_iff]
  constructor
  · rintro ⟨s, i, hs, n, hn, rfl⟩
    exact ⟨n, s, hs, rfl, hn⟩
  · rintro ⟨n, s, hs, hg, hn⟩
    exact ⟨s, id.index, hs, n, hn, by rw [hg]⟩

theorem mem_nodeIds_iff_contains : id ∈ a.nodeIds ↔ a.contains id = true :=
  mem_nodeIds_iff.trans contains_iff.symm

theorem nodup_nodeIds : a.nodeIds.Nodup := by
  have hdistinct : (a.slots.toList.zipIdx).Pairwise fun p q => p.2 ≠ q.2 :=
    List.pairwise_map.mp (by
      rw [List.zipIdx_map_snd]
      exact List.nodup_range')
  refine hdistinct.filterMap _ ?_
  rintro ⟨s, i⟩ ⟨t, j⟩ hij x hx y hy rfl
  obtain ⟨_, -, rfl⟩ := Option.map_eq_some_iff.mp hx
  obtain ⟨_, -, he⟩ := Option.map_eq_some_iff.mp hy
  exact hij (congrArg NodeId.index he).symm

theorem length_nodeIds : a.nodeIds.length = a.occupied := by
  have h (l : List (Slot β)) (k : Nat) :
      ((l.zipIdx k).filterMap fun x => x.1.node.map fun _ => NodeId.mk x.2 x.1.generation).length =
        l.countP fun s => s.node.isSome := by
    induction l generalizing k with
    | nil => rfl
    | cons s l ih =>
      rw [List.zipIdx_cons, List.countP_cons, ← ih (k + 1)]
      cases hs : s.node <;> simp [hs]
  exact h a.slots.toList 0

/-! ### One node changed -/

theorem updateNode_eq_ok_iff {b : Arena β} {f : Node β → Node β} :
    a.updateNode id f = .ok b ↔ a.contains id = true ∧ b = a.modifyNode id.index f := by
  unfold updateNode
  split
  · rename_i h
    simp [h, eq_comm]
  · rename_i h
    simp [h]

theorem node?_modifyNode (i : Nat) (f : Node β → Node β) :
    (a.modifyNode i f).node? x = if x.index = i then (a.node? x).map f else a.node? x := by
  simp only [node?, slot?, modifyNode, Array.getElem?_modify, eq_comm (a := i)]
  split
  · cases hs : a.slots[x.index]? with
    | none => rfl
    | some s =>
      by_cases hg : s.generation = x.generation <;> simp [Option.filter, hg]
  · rfl

theorem node?_modifyNode_of_live (hx : a.node? x = some n) (f : Node β → Node β) :
    (a.modifyNode x.index f).node? y = if y = x then some (f n) else a.node? y := by
  rw [node?_modifyNode]
  by_cases hxy : y = x
  · simp [hxy, hx]
  · rw [if_neg hxy]
    split
    · rename_i hi
      cases hy : a.node? y with
      | none => rfl
      | some m => exact absurd (eq_of_node?_index hy hx hi) hxy
    · rfl

@[simp] theorem pins_modifyNode (i : Nat) (f : Node β → Node β) :
    (a.modifyNode i f).pins x = a.pins x := by
  simp only [pins, slot?, modifyNode, Array.getElem?_modify]
  split
  · cases a.slots[x.index]? with
    | none => rfl
    | some s => by_cases hg : s.generation = x.generation <;> simp [Option.filter, hg]
  · rfl

@[simp] theorem contains_modifyNode (i : Nat) (f : Node β → Node β) :
    (a.modifyNode i f).contains x = a.contains x := by
  simp only [contains, node?_modifyNode]
  split <;> simp

@[simp] theorem parameters_modifyNode (i : Nat) (f : Node β → Node β) :
    (a.modifyNode i f).parameters = a.parameters := rfl

@[simp] theorem results_modifyNode (i : Nat) (f : Node β → Node β) :
    (a.modifyNode i f).results = a.results := rfl

@[simp] theorem free_modifyNode (i : Nat) (f : Node β → Node β) :
    (a.modifyNode i f).free = a.free := rfl

@[simp] theorem live_modifyNode (i : Nat) (f : Node β → Node β) :
    (a.modifyNode i f).live = a.live := rfl

end TensorGraph.Arena
