import TensorGraph.Proofs.Rewrite.Rewiring

/-! # Edits

All that changes a graph, releases and pins apart, is made of four steps: a node takes a slot, a
node is changed, the version is raised, an anchor is listed. What these keep is kept by every edit.
-/

namespace TensorGraph.Arena

variable {β : Type} {a b : Arena β}

/-- What the steps keep of which edits are made. -/
structure KeptByEdits (P : Arena β → Prop) : Prop where
  allocate : ∀ a n, P a → P (a.allocate n).1
  modifyNode : ∀ a i f, P a → P (a.modifyNode i f)
  bump : ∀ a, P a → P a.bump
  enlist : ∀ a kind id, P a → P (a.enlist kind id)

namespace KeptByEdits

variable {P : Arena β → Prop} (hP : KeptByEdits P)
include hP

theorem insertStaged (ha : P a) (inherited : Annotations) (staged : List (StagedNode β)) :
    P (a.insertStaged inherited staged).1 := by
  induction staged generalizing a with
  | nil => exact ha
  | cons n staged ih => exact ih (hP.allocate a (n.fresh inherited) ha)

theorem wire (ha : P a) (id : NodeId) (inputs : List Value) : P (a.wire id inputs) := by
  have hattach : P (inputs.zipIdx.foldl (fun a x => a.addUse x.1 (id.input x.2)) a) :=
    List.foldlRecOn _ _ ha fun b hb _ _ => hP.modifyNode b _ _ hb
  exact hP.bump _ (hP.modifyNode _ _ _ hattach)

theorem repoint (ha : P a) (v w : Value) : P (a.repoint v w) := by
  have hread : P ((a.uses v).foldl (fun b u => b.readInstead u w)
      (a.modifyOutput v fun o => { o with uses := [] })) :=
    List.foldlRecOn _ _ (hP.modifyNode a _ _ ha) fun b hb _ _ => hP.modifyNode b _ _ hb
  exact hP.bump _ (hP.modifyNode _ _ _ hread)

theorem inheritName (ha : P a) (before : Arena β) (inserted : List NodeId) (v : Value)
    (x : Operand) : P (inheritName before a inserted v x) := by
  unfold Arena.inheritName
  split
  · exact hP.modifyNode a _ _ ha
  · exact ha

theorem rewire (ha : P a) (p : Plan β) : P (a.rewire p).1 := by
  have hinsert := hP.insertStaged ha (a.mergedAnnotations p.sources) p.staged
  have hwired : P ((a.insertStaged (a.mergedAnnotations p.sources) p.staged).1.wired p
      (a.rewire p).2) :=
    List.foldlRecOn _ _ (List.foldlRecOn _ _ hinsert fun b hb r _ => hP.repoint hb r.1 r.2)
      fun b hb w _ => hP.wire hb w.1 w.2
  exact List.foldlRecOn _ _ hwired fun b hb r _ => hP.inheritName hb a _ r.1 r.2

theorem addVerbatim (ha : P a) {op : Operation β} {inputs : List Value} {outputs : List Spec}
    {id : NodeId} (e : a.addVerbatim op inputs outputs = .ok (b, id)) : P b := by
  obtain ⟨-, c, hc, rfl⟩ := addVerbatim_eq_ok_iff.mp e
  have hallocate := hP.allocate a (.fresh op outputs "" .empty) ha
  rw [hc] at hallocate
  exact hP.enlist _ _ _ (hP.wire hallocate id inputs)

theorem addParameter (ha : P a) (name : String) (spec : Spec) :
    P (a.addParameter name spec).1 :=
  hP.enlist _ .parameter _ (hP.allocate a (parameterNode name spec) ha)

end KeptByEdits

end TensorGraph.Arena
