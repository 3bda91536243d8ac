import TensorGraph.Proofs.Inference.Bodies
import TensorGraph.Proofs.Rewrite.Versions

/-! # Contents

The content of a node is all of it but its name and its annotations. An operation after which the
version of a graph is what it was before has left the contents alone, but for one case: inference
that fails after it has revised the specs of a node keeps them and does not raise the version.
-/

namespace TensorGraph

variable {β γ : Type}

def Node.content (n : Node β) : Operation β × List Value × List Output :=
  (n.op, n.inputs, n.outputs)

/-- The content of a node but for the specs of its outputs. -/
def Node.wiring (n : Node β) : Operation β × List Value × List (List Use) :=
  (n.op, n.inputs, n.outputs.map Output.uses)

namespace Arena

variable {a b c : Arena β} {x id : NodeId} {n : Node β} {ids : List NodeId}

def content? (a : Arena β) (id : NodeId) : Option (Operation β × List Value × List Output) :=
  (a.node? id).map Node.content

def wiring? (a : Arena β) (id : NodeId) : Option (Operation β × List Value × List (List Use)) :=
  (a.node? id).map Node.wiring

theorem contains_eq_wiring? : a.contains x = (a.wiring? x).isSome := by
  simp [contains, wiring?]

theorem producers_eq_wiring? :
    a.producers x = ((a.wiring? x).map fun n => n.2.1.map Value.node).getD [] := by
  rw [wiring?, Option.map_map]
  rfl

theorem producers_of_wiring? (hw : b.wiring? = a.wiring?) : b.producers = a.producers := by
  funext x
  rw [producers_eq_wiring?, hw, ← producers_eq_wiring?]

theorem spec?_eq_content? {v : Value} :
    a.spec? v = (a.content? v.node).bind fun n => n.2.2[v.port]?.map Output.spec := by
  cases h : a.node? v.node <;> simp [spec?, output?, content?, h, Node.content]

/-- A later state of an arena: its version is higher, or it shows the same. -/
def Advances (view : Arena β → γ) (a b : Arena β) : Prop :=
  a.version < b.version ∨ a.version = b.version ∧ view b = view a

namespace Advances

variable {view : Arena β → γ}

theorem refl (a : Arena β) : Advances view a a := .inr ⟨rfl, rfl⟩

theorem trans (h : Advances view a b) (h' : Advances view b c) : Advances view a c := by
  rcases h with hlt | ⟨he, hview⟩
  · rcases h' with hlt' | ⟨he', -⟩
    · exact .inl (hlt.trans hlt')
    · exact .inl (he' ▸ hlt)
  · rcases h' with hlt' | ⟨he', hview'⟩
    · exact .inl (he ▸ hlt')
    · exact .inr ⟨he.trans he', hview'.trans hview⟩

theorem view_eq (h : Advances view a b) (hv : b.version = a.version) : view b = view a :=
  h.elim (fun hlt => absurd hv hlt.ne') And.right

theorem map {δ : Type} {coarse : Arena β → δ} (f : γ → δ) (hf : ∀ a, coarse a = f (view a))
    (h : Advances view a b) : Advances coarse a b := by
  refine h.imp_right fun ⟨he, hview⟩ => ⟨he, ?_⟩
  rw [hf, hf, hview]

end Advances

/-! ### Edits and releases -/

theorem content?_modifyNode (i : Nat) {f : Node β → Node β}
    (hf : ∀ n, (f n).content = n.content) : (a.modifyNode i f).content? = a.content? := by
  funext x
  rw [content?, node?_modifyNode, content?]
  split
  · cases a.node? x with
    | none => rfl
    | some n => exact congrArg some (hf n)
  · rfl

theorem content?_modifyPins (i : Nat) (f : UInt32 → UInt32) :
    (a.modifyPins i f).content? = a.content? := by
  funext x
  rw [content?, node?_modifyPins, content?]

theorem wiring?_of_content? (a : Arena β) :
    a.wiring? = fun x => (a.content? x).map fun n => (n.1, n.2.1, n.2.2.map Output.uses) := by
  funext x
  rw [content?, Option.map_map]
  rfl

theorem Advances.wiring (h : Advances content? a b) : Advances wiring? a b :=
  h.map (fun content x => (content x).map fun n => (n.1, n.2.1, n.2.2.map Output.uses))
    wiring?_of_content?

theorem version_lt_addParameter (a : Arena β) (name : String) (spec : Spec) :
    a.version < (a.addParameter name spec).1.version := by
  rw [addParameter_eq, version_enlist, version_allocate]
  exact Nat.lt_succ_self _

theorem version_lt_addVerbatim {op : Operation β} {inputs : List Value} {outputs : List Spec}
    (e : a.addVerbatim op inputs outputs = .ok (b, id)) : a.version < b.version := by
  obtain ⟨-, c, hc, rfl⟩ := addVerbatim_eq_ok_iff.mp e
  have hallocate := version_allocate a (.fresh op outputs "" .empty)
  rw [hc] at hallocate
  have hwire := (version_keptByEdits (a.version + 1)).wire hallocate.ge id inputs
  rw [version_enlist]
  exact hwire

theorem advances_release (view : Arena β → γ) (a : Arena β) (id : NodeId) :
    Advances view a (a.release id).1 := by
  by_cases hz : (a.release id).2 = 0
  · rw [release_eq_zero hz]
    exact .refl a
  · have hbump : (a.release id).1 = (a.sweep [id]).1.bump := if_neg hz
    have hversion := version_sweep a [id]
    rw [hbump]
    exact .inl (Nat.lt_succ_of_le hversion.ge)

theorem advances_releaseAll (view : Arena β → γ) (a : Arena β) (ids : List NodeId) :
    Advances view a (a.releaseAll ids).1 := by
  induction ids generalizing a with
  | nil => exact .refl a
  | cons id ids ih => exact (advances_release view a id).trans (ih _)

theorem advances_exhaust (view : Arena β → γ) (a : Arena β) (ids : List NodeId) :
    Advances view a (a.exhaust ids).1 := by
  fun_induction exhaust a ids with
  | case1 a h => exact advances_releaseAll view a ids
  | case2 a h _ b rest hb ih =>
    rw [hb] at ih
    exact (advances_releaseAll view a ids).trans ih

end Arena

open Arena

variable {a b : Arena β} {x id : NodeId} {n : Node β} {ids : List NodeId}

/-! ### Operations -/

namespace Command

theorem advances_updateNode {f : Node β → Node β} (hf : ∀ n, (f n).content = n.content)
    (e : a.updateNode id f = .ok b) : Advances content? a b := by
  obtain ⟨-, rfl⟩ := updateNode_eq_ok_iff.mp e
  exact .inr ⟨rfl, content?_modifyNode _ hf⟩

theorem advances_copyAnnotations {sources destinations : List NodeId}
    (e : a.copyAnnotations sources destinations = .ok b) : Advances content? a b := by
  refine copyAnnotations_induction (.refl a) (fun c merged id hc => hc.trans ?_) e
  exact .inr ⟨rfl, content?_modifyNode _ fun _ => rfl⟩

variable [Described β]

/-- Every operation but renewed inference raises the version or leaves the contents. -/
theorem advances (a : Arena β) {c : Command β} (hc : c ≠ .revalidate) :
    Advances content? a (c.perform a).1 := by
  have hadd {op : Operation β} {inputs : List Value} (y : Arena β × NodeId)
      (e : a.addNode op inputs = .ok y) : Advances content? a y.1 := by
    obtain ⟨specs, outputs, -, -, e⟩ := addNode_eq_ok_iff.mp e
    exact .inl (version_lt_addVerbatim e)
  cases c with
  | addParameter name spec => exact .inl (version_lt_addParameter a name spec)
  | addNode op inputs => exact settle_induction (.refl a) hadd
  | addResult v => exact settle_induction (.refl a) hadd
  | rename id name =>
    refine settle_induction (.refl a) fun b e => advances_updateNode (fun n => ?_) e
    rfl
  | annotate id key value =>
    refine settle_induction (.refl a) fun b e => advances_updateNode (fun n => ?_) e
    rfl
  | copyAnnotations sources destinations =>
    exact settle_induction (.refl a) fun b e => advances_copyAnnotations e
  | pin id =>
    refine settle_induction (.refl a) fun b e => ?_
    obtain ⟨-, rfl⟩ := pin_eq_ok_iff.mp e
    exact .inr ⟨rfl, content?_modifyPins _ _⟩
  | unpin id =>
    refine settle_induction (.refl a) fun y e => ?_
    obtain ⟨-, rfl⟩ := unpin_eq_ok_iff.mp e
    have hpins : Advances content? a (a.modifyPins id.index dropPin) :=
      .inr ⟨rfl, content?_modifyPins _ _⟩
    exact hpins.trans (advances_release _ _ _)
  | collectGarbage => exact advances_exhaust _ _ _
  | replace v w =>
    refine settle_induction (.refl a) fun y e => ?_
    obtain ⟨-, rfl⟩ := replace_eq_ok_iff.mp e
    exact .inl (version_lt_apply a (Plan.empty.replace v w))
  | revalidate => exact absurd rfl hc
  | commit p =>
    refine settle_induction (.refl a) fun y e => ?_
    obtain ⟨-, rfl⟩ := commit_eq_ok_iff.mp e
    exact .inl (version_lt_apply a p)

end Command

variable [Described β]

/-! ### Renewed inference -/

namespace Arena

/-- Inference gives for a node what is recorded. -/
def Confirms (a : Arena β) (id : NodeId) : Prop :=
  ∃ n, a.node? id = some n ∧ a.inferNode id = .ok n.specs

/-- Inference gives for a node other specs than are recorded. -/
def Revises (a : Arena β) (id : NodeId) : Prop :=
  ∃ n specs, a.node? id = some n ∧ a.inferNode id = .ok specs ∧ specs ≠ n.specs

/-- Renewed inference fails after it has revised a node: those placed before it are confirmed. -/
structure Strands (a : Arena β) : Prop where
  revises : ∃ before id after, a.topologicalOrder = .ok (before ++ id :: after) ∧
    (∀ x ∈ before, a.Confirms x) ∧ a.Revises id
  fails : ∃ e, a.revalidate.2 = .error e

section SetSpecs

variable {specs : List Spec} (hn : a.node? id = some n)
include hn

omit [Described β] in
theorem node?_setSpecs : (a.setSpecs id specs).node? x = if x = id then
    some { n with outputs := n.outputs.zipWith (fun o spec => { o with spec }) specs }
    else a.node? x :=
  node?_modifyNode_of_live hn _

variable (hlen : specs.length = n.outputs.length)
include hlen

omit [Described β] in
theorem wiring?_setSpecs : (a.setSpecs id specs).wiring? = a.wiring? := by
  funext x
  rw [wiring?, node?_setSpecs hn, wiring?]
  split
  · rename_i hx
    rw [hx, hn, Option.map_some, Node.wiring, map_uses_zipWith hlen.ge]
    rfl
  · rfl

omit [Described β] in
theorem content?_setSpecs_ne (hne : specs ≠ n.specs) :
    (a.setSpecs id specs).content? id ≠ a.content? id := by
  rw [content?, node?_setSpecs hn, if_pos rfl, content?, hn]
  intro he
  have houtputs := (Prod.mk.inj (Prod.mk.inj (Option.some.inj he)).2).2
  apply hne
  have hspecs := congrArg (List.map Output.spec) houtputs
  rw [List.map_zipWith] at hspecs
  rw [Node.specs, ← hspecs]
  simpa [List.zip, List.map_zipWith] using (List.map_snd_zip hlen.le).symm

end SetSpecs

/-- Inference of all nodes changes nothing but nodes. -/
theorem inferAll_induction {P : Arena β → Prop} (hP : ∀ b i f, P b → P (b.modifyNode i f))
    (ha : P a) (ids : List NodeId) : P (a.inferAll ids).1 := by
  induction ids generalizing a with
  | nil => exact ha
  | cons id ids ih =>
    unfold inferAll
    split
    · exact ih (hP a _ _ ha)
    · exact ha

theorem version_inferAll (ids : List NodeId) : (a.inferAll ids).1.version = a.version :=
  inferAll_induction (P := fun b => b.version = a.version) (fun _ _ _ h => h) rfl ids

theorem wiring?_inferAll (ids : List NodeId) : (a.inferAll ids).1.wiring? = a.wiring? := by
  induction ids generalizing a with
  | nil => rfl
  | cons id ids ih =>
    unfold inferAll
    split
    · rename_i specs e
      obtain ⟨n, -, hn, -, -, hlen⟩ := inferNode_eq_ok e
      exact ih.trans (wiring?_setSpecs hn hlen)
    · rfl

theorem node?_inferAll (hx : x ∉ ids) : (a.inferAll ids).1.node? x = a.node? x := by
  induction ids generalizing a with
  | nil => rfl
  | cons id ids ih =>
    obtain ⟨hne, hx⟩ := not_or.mp (mt List.mem_cons.mpr hx)
    unfold inferAll
    split
    · rename_i specs e
      obtain ⟨n, -, hn, -⟩ := inferNode_eq_ok e
      rw [ih hx, node?_setSpecs hn, if_neg hne]
    · rfl

section Inferred

variable {specs : List Spec} (hn : a.node? id = some n) (e : a.inferNode id = .ok specs)
include hn e

theorem confirms_iff_of_inferNode : a.Confirms id ↔ specs = n.specs := by
  constructor
  · rintro ⟨m, hm, he⟩
    obtain rfl := Option.some.inj (hn.symm.trans hm)
    exact Except.ok.inj (e.symm.trans he)
  · rintro rfl
    exact ⟨n, hn, e⟩

theorem revises_iff_of_inferNode : a.Revises id ↔ specs ≠ n.specs := by
  constructor
  · rintro ⟨m, revised, hm, he, hne⟩
    obtain rfl := Option.some.inj (hn.symm.trans hm)
    obtain rfl := Except.ok.inj (e.symm.trans he)
    exact hne
  · exact fun hne => ⟨n, specs, hn, e, hne⟩

end Inferred

theorem exists_revises_cons_iff : (∃ before y after, id :: ids = before ++ y :: after ∧
    (∀ x ∈ before, a.Confirms x) ∧ a.Revises y) ↔ a.Revises id ∨ a.Confirms id ∧
      ∃ before y after, ids = before ++ y :: after ∧ (∀ x ∈ before, a.Confirms x) ∧
        a.Revises y := by
  constructor
  · rintro ⟨_ | ⟨z, before⟩, y, after, he, hbefore, hy⟩
    · obtain ⟨rfl, rfl⟩ := List.cons.inj he
      exact .inl hy
    · obtain ⟨rfl, rfl⟩ := List.cons.inj he
      obtain ⟨hz, hbefore⟩ := List.forall_mem_cons.mp hbefore
      exact .inr ⟨hz, before, y, after, rfl, hbefore, hy⟩
  · rintro (hy | ⟨hconfirms, before, y, after, rfl, hbefore, hy⟩)
    · exact ⟨[], id, ids, rfl, by simp, hy⟩
    · exact ⟨id :: before, y, after, rfl, List.forall_mem_cons.mpr ⟨hconfirms, hbefore⟩, hy⟩

/-- The contents change exactly if a node is revised after others that are all confirmed. -/
theorem content?_inferAll_ne_iff (hids : ids.Nodup) : (a.inferAll ids).1.content? ≠ a.content? ↔
    ∃ before id after, ids = before ++ id :: after ∧ (∀ x ∈ before, a.Confirms x) ∧
      a.Revises id := by
  induction ids with
  | nil => simp [inferAll]
  | cons id ids ih =>
    obtain ⟨hid, hids⟩ := List.nodup_cons.mp hids
    rw [exists_revises_cons_iff]
    cases e : a.inferNode id with
    | error f =>
      have hrevises : ¬ a.Revises id := by
        rintro ⟨n, specs, -, he, -⟩
        cases e.symm.trans he
      have hconfirms : ¬ a.Confirms id := by
        rintro ⟨n, -, he⟩
        cases e.symm.trans he
      simp [inferAll, e, hrevises, hconfirms]
    | ok specs =>
      obtain ⟨n, -, hn, -, -, hlen⟩ := inferNode_eq_ok e
      rw [revises_iff_of_inferNode hn e, confirms_iff_of_inferNode hn e]
      by_cases hs : specs = n.specs
      · have hsame : a.inferAll (id :: ids) = a.inferAll ids := by
          rw [inferAll, e]
          dsimp only
          rw [hs, setSpecs_eq_self hn]
        simp [hsame, hs, ih hids]
      · have hchanged : (a.inferAll (id :: ids)).1.content? ≠ a.content? := by
          intro he
          apply content?_setSpecs_ne hn hlen hs
          rw [← congrFun he id, inferAll, e]
          simp only [content?, node?_inferAll hid]
        simp [hs, hchanged]

theorem WellFormed.revalidate_cases (ha : a.WellFormed) :
    a.version < a.revalidate.1.version ∨
      a.revalidate.1.version = a.version ∧ a.revalidate.1.wiring? = a.wiring? ∧
        (a.revalidate.1.content? ≠ a.content? ↔ a.Strands) := by
  obtain ⟨order, horder, -, hperm⟩ := ha.topologicalOrder_eq
  have hnodup : order.Nodup := hperm.nodup_iff.mpr nodup_nodeIds
  have hversion := version_inferAll (a := a) order
  have hwiring := wiring?_inferAll (a := a) order
  have hcontent := content?_inferAll_ne_iff (a := a) hnodup
  rcases e : a.inferAll order with ⟨b, f | ⟨⟩⟩
  · have hresult : a.revalidate = (b, .error f) := by simp only [Arena.revalidate, horder, e]
    rw [e] at hversion hwiring hcontent
    rw [hresult]
    refine .inr ⟨hversion, hwiring, hcontent.trans ?_⟩
    constructor
    · rintro ⟨before, id, after, rfl, hbefore, hid⟩
      exact ⟨⟨before, id, after, horder, hbefore, hid⟩, f, by rw [hresult]⟩
    · rintro ⟨⟨before, id, after, horder', hbefore, hid⟩, -⟩
      exact ⟨before, id, after, Except.ok.inj (horder.symm.trans horder'), hbefore, hid⟩
  · have hresult : a.revalidate = (b.bump, .ok ()) := by simp only [Arena.revalidate, horder, e]
    rw [e] at hversion
    rw [hresult]
    exact .inl (Nat.lt_succ_of_le hversion.ge)

end Arena

/-- After an operation the version tells whether the contents are what they were, unless renewed
inference fails after it has revised a node. -/
theorem Command.perform_cases (ha : a.WellFormed) (c : Command β) :
    a.version < (c.perform a).1.version ∨
      (c.perform a).1.version = a.version ∧ (c.perform a).1.wiring? = a.wiring? ∧
        ((c.perform a).1.content? ≠ a.content? ↔ c = .revalidate ∧ a.Strands) := by
  by_cases hc : c = .revalidate
  · subst hc
    simpa [perform] using ha.revalidate_cases
  · have h := advances a hc
    refine h.imp_right ?_
    rintro ⟨he, hcontent⟩
    refine ⟨he.symm, h.wiring.view_eq he.symm, ?_⟩
    simp [hc, hcontent]

end TensorGraph
