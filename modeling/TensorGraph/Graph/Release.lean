import TensorGraph.Graph.Edit

/-! # Release

A node that nothing reads, nothing pins and that is no anchor is dead. Releasing it vacates its
slot and may leave the producers of its inputs dead in turn. Every release lowers the number of
occupied slots, which is why the cascade ends.
-/

namespace TensorGraph.Arena

variable {β : Type}

def occupied (a : Arena β) : Nat := a.slots.toList.countP fun s => s.node.isSome

def dead? (a : Arena β) (id : NodeId) : Option (Node β) :=
  (a.slot? id).bind fun s =>
    s.node.filter fun n => s.pins == 0 && !n.isAnchor && n.isUnused

/-- The arena without the node of a slot, whose generation is raised. -/
def vacate (a : Arena β) (index : Nat) : Arena β :=
  { a with
    slots := a.slots.modify index fun s =>
      { s with generation := s.generation + 1, node := none }
    free := index :: a.free
    live := a.live - 1 }

/-- Values no longer read by the inputs of a node. -/
def detach (a : Arena β) (id : NodeId) (inputs : List Value) : Arena β :=
  inputs.zipIdx.foldl (fun a (v, port) => a.removeUse v (id.input port)) a

theorem countP_modify_of_eq {α : Type} (p : α → Bool) (f : α → α) (l : List α) (i : Nat)
    (h : ∀ x, p (f x) = p x) : (l.modify i f).countP p = l.countP p := by
  induction l generalizing i with
  | nil => simp
  | cons x l ih => cases i <;> simp [List.countP_cons, h, ih]

theorem countP_modify_lt {α : Type} (p : α → Bool) (f : α → α) (l : List α) (i : Nat) {x : α}
    (hx : l[i]? = some x) (hp : p x) (hf : p (f x) = false) :
    (l.modify i f).countP p + 1 = l.countP p := by
  induction l generalizing i with
  | nil => simp at hx
  | cons y l ih =>
    cases i with
    | zero => simp_all
    | succ i => simp [List.countP_cons, ← ih i (by simpa using hx)]; omega

theorem occupied_modifyNode (a : Arena β) (index : Nat) (f : Node β → Node β) :
    (a.modifyNode index f).occupied = a.occupied := by
  simp [occupied, modifyNode, countP_modify_of_eq]

theorem occupied_detach (a : Arena β) (id : NodeId) (inputs : List Value) :
    (a.detach id inputs).occupied = a.occupied := by
  rw [detach]
  induction inputs.zipIdx generalizing a with
  | nil => rfl
  | cons x xs ih => rw [List.foldl_cons, ih]; exact occupied_modifyNode ..

theorem occupied_vacate {a : Arena β} {id : NodeId} {n : Node β} (h : a.dead? id = some n) :
    (a.vacate id.index).occupied + 1 = a.occupied := by
  obtain ⟨s, hs, hn⟩ := Option.bind_eq_some_iff.mp h
  obtain ⟨hs, -⟩ := Option.filter_eq_some_iff.mp hs
  obtain ⟨hn, -⟩ := Option.filter_eq_some_iff.mp hn
  simp only [occupied, vacate, Array.toList_modify]
  exact countP_modify_lt _ _ _ _ (by simpa using hs) (by simp [hn]) rfl

/-- Releases what is dead on the work list, last come first served, and counts the releases. -/
def sweep (a : Arena β) : List NodeId → Arena β × Nat
  | [] => (a, 0)
  | id :: work =>
    match h : a.dead? id with
    | none => sweep a work
    | some n =>
      have := occupied_vacate h
      have := occupied_detach (a.vacate id.index) id n.inputs
      let (a, count) := sweep ((a.vacate id.index).detach id n.inputs)
        ((n.inputs.map Value.node).reverse ++ work)
      (a, count + 1)
termination_by work => (a.occupied, work.length)
decreasing_by
  · exact Prod.Lex.right _ (by simp)
  · exact Prod.Lex.left _ _ (by omega)

/-- Releases a node if it is dead, and with it all that it alone kept. -/
def release (a : Arena β) (id : NodeId) : Arena β × Nat :=
  let (a, count) := a.sweep [id]
  (if count = 0 then a else a.bump, count)

/-- Releases a list of nodes one after the other. -/
def releaseAll (a : Arena β) : List NodeId → Arena β × Nat
  | [] => (a, 0)
  | id :: ids =>
    let (a, count) := a.release id
    let (a, rest) := releaseAll a ids
    (a, count + rest)

theorem occupied_sweep (a : Arena β) (work : List NodeId) :
    (a.sweep work).1.occupied + (a.sweep work).2 = a.occupied := by
  fun_induction sweep a work with
  | case1 a => rfl
  | case2 a id work hd ih => exact ih
  | case3 a id work n hd hvacate hdetach b count hb ih =>
    rw [hb] at ih
    dsimp only at ih ⊢
    omega

theorem occupied_release (a : Arena β) (id : NodeId) :
    (a.release id).1.occupied + (a.release id).2 = a.occupied := by
  have h := occupied_sweep a [id]
  rw [release]
  dsimp only
  split
  · exact h
  · exact h

theorem occupied_releaseAll (a : Arena β) (ids : List NodeId) :
    (a.releaseAll ids).1.occupied + (a.releaseAll ids).2 = a.occupied := by
  induction ids generalizing a with
  | nil => rfl
  | cons id ids ih =>
    have hfirst := occupied_release a id
    have hrest := ih (a.release id).1
    dsimp only [releaseAll]
    omega

/-- Goes through the nodes again as long as some of them are released. -/
def exhaust (a : Arena β) (ids : List NodeId) : Arena β × Nat :=
  if (a.releaseAll ids).2 = 0 then a.releaseAll ids
  else
    have := occupied_releaseAll a ids
    let (b, rest) := exhaust (a.releaseAll ids).1 ids
    (b, (a.releaseAll ids).2 + rest)
termination_by a.occupied
decreasing_by omega

/-- One handle less; the node is released if nothing else holds it. -/
def unpin (a : Arena β) (id : NodeId) : Except GraphError (Arena β × Nat) :=
  if a.contains id then
    let a := { a with slots := a.slots.modify id.index fun s => { s with pins := dropPin s.pins } }
    .ok (a.release id)
  else .error (.unknownNode id)

end TensorGraph.Arena
