import TensorGraph.Proofs.Inference.Monotonicity
import TensorGraph.Proofs.Meaning.Valuation
import TensorGraph.Proofs.Inference.Typing

/-! # Soundness of inference

Inference under the standard table is a sound abstraction: what it gives on refined inputs refines
what it gives on the inputs themselves. For a subgraph this is an induction over its body. Two
copies of a body that differ in specs alone are inferred in the same order, and every step keeps
the specs of one copy refining those of the other.
-/

namespace TensorGraph

variable {β γ : Type}

/-! ### Copies that differ in specs -/

/-- The same operation, or a parameter of a refined spec. -/
inductive Operation.Refines : Operation β → Operation β → Prop
  | same (op : Operation β) : Refines op op
  | parameter {refined spec : Spec} (h : refined.Refines spec) :
      Refines (Primitive.parameter refined) (Primitive.parameter spec)

structure Output.Refines (refined o : Output) : Prop where
  spec : refined.spec.Refines o.spec
  uses : refined.uses = o.uses

structure Node.Refines (refined n : Node β) : Prop where
  op : refined.op.Refines n.op
  inputs : refined.inputs = n.inputs
  outputs : List.Forall₂ Output.Refines refined.outputs n.outputs

structure Slot.Refines (refined s : Slot β) : Prop where
  generation : refined.generation = s.generation
  node : Option.Rel Node.Refines refined.node s.node

/-- The same wiring, with refined specs. -/
structure Arena.Refines (refined a : Arena β) : Prop where
  slots : List.Forall₂ Slot.Refines refined.slots.toList a.slots.toList
  parameters : refined.parameters = a.parameters
  results : refined.results = a.results
  live : refined.live = a.live
  table : refined.table = a.table

theorem Operation.Refines.map {op op' : Operation β} (h : op'.Refines op) (f : β → γ) :
    (op'.map f).Refines (op.map f) := by
  cases h with
  | same => exact .same _
  | parameter h => exact .parameter h

protected theorem Node.Refines.rfl {n : Node β} : n.Refines n :=
  ⟨.same _, rfl, List.forall₂_same.mpr fun _ _ => ⟨.rfl, rfl⟩⟩

section Relations

variable {α α' δ δ' : Type} {R : α → δ → Prop} {Q : α' → δ' → Prop}

theorem rel_bind {x : Option α} {y : Option δ} {f : α → Option α'} {f' : δ → Option δ'}
    (h : Option.Rel R x y) (hf : ∀ {a b}, R a b → Option.Rel Q (f a) (f' b)) :
    Option.Rel Q (x.bind f) (y.bind f') := by
  cases h with
  | none => exact .none
  | some hab => exact hf hab

theorem rel_map {x : Option α} {y : Option δ} {f : α → α'} {f' : δ → δ'}
    (h : Option.Rel R x y) (hf : ∀ {a b}, R a b → Q (f a) (f' b)) :
    Option.Rel Q (x.map f) (y.map f') := by
  cases h with
  | none => exact .none
  | some hab => exact .some (hf hab)

theorem rel_getElem? {as : List α} {bs : List δ} (h : List.Forall₂ R as bs) (i : Nat) :
    Option.Rel R as[i]? bs[i]? := by
  induction h generalizing i with
  | nil => exact .none
  | cons hab _ ih =>
    cases i with
    | zero => exact .some hab
    | succ i => exact ih i

theorem forall₂_modify {f : α → α} {f' : δ → δ} {as : List α} {bs : List δ}
    (h : List.Forall₂ R as bs) (hf : ∀ a b, R a b → R (f a) (f' b)) (i : Nat) :
    List.Forall₂ R (as.modify i f) (bs.modify i f') := by
  induction h generalizing i with
  | nil =>
    rw [List.modify_nil, List.modify_nil]
    exact .nil
  | cons hab htl ih =>
    cases i with
    | zero =>
      rw [List.modify_zero_cons, List.modify_zero_cons]
      exact .cons (hf _ _ hab) htl
    | succ i =>
      rw [List.modify_succ_cons, List.modify_succ_cons]
      exact .cons hab (ih i)

theorem map_eq_of_forall₂ {f : α → α'} {f' : δ → α'} {as : List α} {bs : List δ}
    (h : List.Forall₂ R as bs) (hf : ∀ a b, R a b → f a = f' b) : as.map f = bs.map f' := by
  induction h with
  | nil => rfl
  | cons hab _ ih => rw [List.map_cons, List.map_cons, hf _ _ hab, ih]

end Relations

namespace Arena

variable {a b a' b' : Arena β} {id : NodeId} {given refined : List Spec}

namespace Refines

protected theorem rfl : a.Refines a where
  slots := List.forall₂_same.mpr fun s _ => ⟨rfl, by
    cases s.node with
    | none => exact .none
    | some n => exact .some .rfl⟩
  parameters := rfl
  results := rfl
  live := rfl
  table := rfl

theorem node? (h : b.Refines a) (id : NodeId) :
    Option.Rel Node.Refines (b.node? id) (a.node? id) := by
  have hslot := rel_getElem? h.slots id.index
  rw [Array.getElem?_toList, Array.getElem?_toList] at hslot
  unfold Arena.node? slot?
  generalize b.slots[id.index]? = x at hslot
  generalize a.slots[id.index]? = y at hslot
  cases hslot with
  | none => exact .none
  | @some s t hst =>
    rw [Option.filter_some, Option.filter_some, hst.generation]
    split
    · exact hst.node
    · exact .none

theorem modifyNode (h : b.Refines a) {f f' : Node β → Node β}
    (hf : ∀ {m n : Node β}, m.Refines n → (f m).Refines (f' n)) (i : Nat) :
    (b.modifyNode i f).Refines (a.modifyNode i f') := by
  refine ⟨?_, h.parameters, h.results, h.live, h.table⟩
  simp only [Arena.modifyNode, Array.toList_modify]
  refine forall₂_modify h.slots ?_ i
  exact fun s t hst => ⟨hst.generation, rel_map hst.node hf⟩

theorem bump (h : b.Refines a) : b.bump.Refines a.bump :=
  ⟨h.slots, h.parameters, h.results, h.live, h.table⟩

theorem spec? (h : b.Refines a) (v : Value) :
    Option.Rel Spec.Refines (b.spec? v) (a.spec? v) :=
  rel_map (rel_bind (h.node? v.node) fun hn => rel_getElem? hn.outputs v.port) Output.Refines.spec

end Refines

/-! ### The order -/

def wiring (a : Arena β) : List (UInt32 × Option (List Value × List (List Use))) :=
  a.slots.toList.map fun s =>
    (s.generation, s.node.map fun n => (n.inputs, n.outputs.map Output.uses))

section Wiring

variable {b : Arena γ}

theorem nodeIds_congr (h : b.wiring = a.wiring) : b.nodeIds = a.nodeIds := by
  have hids {α : Type} (a : Arena α) : a.nodeIds =
      a.wiring.zipIdx.filterMap fun w => w.1.2.map fun _ => ⟨w.2, w.1.1⟩ := by
    simp only [nodeIds, wiring, List.zipIdx_map, List.filterMap_map]
    congr 1
    funext s
    cases hs : s.1.node <;> simp [hs]
  rw [hids, hids, h]

theorem allUses_congr (h : b.wiring = a.wiring) : b.allUses = a.allUses := by
  have huses {α : Type} (a : Arena α) (id : NodeId) : a.allUses id =
      (((a.wiring[id.index]?.filter fun w => w.1 == id.generation).bind Prod.snd).map
        fun w => w.2.flatten).getD [] := by
    simp only [allUses, wiring, Arena.node?, slot?, List.getElem?_map, Array.getElem?_toList]
    cases a.slots[id.index]? with
    | none => rfl
    | some s =>
      rw [Option.map_some, Option.filter_some, Option.filter_some]
      split
      · cases hs : s.node <;> simp [hs, List.flatMap_def]
      · rfl
  funext id
  rw [huses, huses, h]

theorem schedule_congr (h : b.wiring = a.wiring) : b.schedule = a.schedule := by
  have hpending {α : Type} (a : Arena α) : a.slots.map inputCount =
      (a.wiring.map fun w => (w.2.map fun w => w.1.length).getD 0).toArray := by
    rw [← Array.toList_inj, Array.toList_map, wiring, List.map_map]
    refine List.map_congr_left fun s _ => ?_
    cases hs : s.node <;> simp [inputCount, hs]
  simp only [schedule, hpending, nodeIds_congr h, h]

theorem place_congr (h : b.wiring = a.wiring) (count : Nat) : b.place count = a.place count := by
  induction count with
  | zero => rfl
  | succ count ih =>
    funext s
    simp only [place, ih, allUses_congr h]

theorem topologicalOrder_congr (h : b.wiring = a.wiring) (hlive : b.live = a.live) :
    b.topologicalOrder = a.topologicalOrder := by
  have hsize : b.slots.size = a.slots.size := by
    simpa [wiring] using congrArg List.length h
  simp only [topologicalOrder, hsize, place_congr h, schedule_congr h, nodeIds_congr h, hlive]

end Wiring

theorem Refines.topologicalOrder (h : b.Refines a) : b.topologicalOrder = a.topologicalOrder := by
  refine topologicalOrder_congr (map_eq_of_forall₂ h.slots fun s t hst => ?_) h.live
  refine Prod.ext hst.generation ?_
  have hnode := hst.node
  dsimp only
  generalize s.node = x at hnode
  generalize t.node = y at hnode
  cases hnode with
  | none => rfl
  | some hn =>
    rw [Option.map_some, Option.map_some, hn.inputs,
      map_eq_of_forall₂ hn.outputs fun _ _ => Output.Refines.uses]

end Arena

/-! ### One operation -/

def Interface.Monotone (i : Interface) : Prop := ∀ given refined outputs outputs' : List Spec,
  List.Forall₂ Spec.Refines refined given → i.infer given = .ok outputs →
    i.infer refined = .ok outputs' → List.Forall₂ Spec.Refines outputs' outputs

theorem Operation.Refines.infer {op op' : Operation Interface} {given refined : List Spec}
    {outputs outputs' : List Spec} (hop : op'.Refines op)
    (hbody : ∀ i, op = .subgraph i → i.Monotone) (h : List.Forall₂ Spec.Refines refined given)
    (e : CapabilityTable.standard.infer op given = .ok outputs)
    (e' : CapabilityTable.standard.infer op' refined = .ok outputs') :
    List.Forall₂ Spec.Refines outputs' outputs := by
  cases hop with
  | parameter hspec =>
    obtain rfl := Except.ok.inj (infer_standard_eq_ok e).2
    obtain rfl := Except.ok.inj (infer_standard_eq_ok e').2
    exact .cons hspec .nil
  | same =>
    cases op with
    | subgraph i =>
      exact hbody i rfl given refined outputs outputs' h (infer_standard_eq_ok e).2
        (infer_standard_eq_ok e').2
    | primitive p =>
      by_cases hp : p = .fullyConnected
      · subst hp
        exact refines_fullyConnected_rule h (infer_standard_eq_ok e).2 (infer_standard_eq_ok e').2
      · obtain ⟨_, ha, hrefine⟩ := CapabilityTable.covers_infer p hp h outputs' e'
        obtain rfl := Except.ok.inj (e.symm.trans ha)
        exact hrefine

/-! ### A whole body -/

namespace Arena

variable {a b a' b' : Arena β} {id : NodeId} {given refined : List Spec}

theorem Refines.setParameter (h : b.Refines a) {s c : Spec} (hs : c.Refines s) :
    (b.setParameter id c).Refines (a.setParameter id s) := by
  refine h.modifyNode ?_ id.index
  intro m n hn
  refine ⟨.parameter hs, hn.inputs, forall₂_modify hn.outputs ?_ 0⟩
  exact fun _ _ ho => ⟨hs, ho.uses⟩

theorem Refines.setSpecs (h : b.Refines a) (hs : List.Forall₂ Spec.Refines refined given) :
    (b.setSpecs id refined).Refines (a.setSpecs id given) := by
  refine h.modifyNode ?_ id.index
  intro m n hn
  refine ⟨hn.op, hn.inputs, ?_⟩
  have houtputs := hn.outputs
  generalize m.outputs = os at houtputs
  generalize n.outputs = ps at houtputs
  dsimp only
  clear hn
  induction houtputs generalizing refined given with
  | nil => exact .nil
  | cons ho _ ih =>
    cases hs with
    | nil => exact .nil
    | cons hs hrest => exact .cons ⟨hs, ho.uses⟩ (ih hrest)

theorem Refines.bindFrom : ∀ {ids : List NodeId} {given refined : List Spec} {position : Nat}
    {a b : Arena β}, b.Refines a → List.Forall₂ Spec.Refines refined given →
    a.bindFrom position (ids.zip given) = .ok a' →
    b.bindFrom position (ids.zip refined) = .ok b' → b'.Refines a'
  | [], _, _, _, _, _, h, _, e, e' => by
    obtain rfl := Except.ok.inj e
    obtain rfl := Except.ok.inj e'
    exact h
  | id :: ids, _, _, position, a, b, h, .nil, e, e' => by
    obtain rfl := Except.ok.inj e
    obtain rfl := Except.ok.inj e'
    exact h
  | id :: ids, _, _, position, a, b, h, .cons hs hrest, e, e' => by
    rw [List.zip_cons_cons, Arena.bindFrom] at e e'
    split at e
    · cases e
    · split at e
      · cases e
      · split at e
        · split at e'
          · cases e'
          · split at e'
            · cases e'
            · split at e'
              · exact (h.setParameter hs).bindFrom hrest e e'
              · cases e'
        · cases e

variable [Described β]

def Monotone (a : Arena β) : Prop :=
  ∀ x n body, a.node? x = some n → n.op = .subgraph body → (Described.describe body).Monotone

theorem Monotone.modifyNode (h : a.Monotone) {i : Nat} {f : Node β → Node β}
    (hf : ∀ n body, (f n).op = .subgraph body → n.op = .subgraph body) :
    (a.modifyNode i f).Monotone := by
  intro x m body hm hop
  rw [node?_modifyNode] at hm
  split at hm
  · obtain ⟨n, hn, rfl⟩ := Option.map_eq_some_iff.mp hm
    exact h x n body hn (hf n body hop)
  · exact h x m body hm hop

theorem Monotone.bindFrom : ∀ {params : List (NodeId × Spec)} {position : Nat} {a : Arena β},
    a.Monotone → a.bindFrom position params = .ok a' → a'.Monotone ∧ a'.table = a.table
  | [], _, _, h, e => Except.ok.inj e ▸ ⟨h, rfl⟩
  | (id, spec) :: params, position, a, h, e => by
    rw [Arena.bindFrom] at e
    split at e
    · cases e
    · split at e
      · cases e
      · split at e
        · exact (h.modifyNode fun _ _ hop => by cases hop).bindFrom e
        · cases e

omit [Described β] in
theorem Refines.specs (h : b.Refines a) {values : List Value} (e : a.specs values = .ok given)
    (e' : b.specs values = .ok refined) : List.Forall₂ Spec.Refines refined given := by
  have hvalues : List.Forall₂ (Option.Rel Spec.Refines) (values.map b.spec?)
      (values.map a.spec?) := by
    rw [List.forall₂_map_left_iff, List.forall₂_map_right_iff]
    exact List.forall₂_same.mpr fun v _ => h.spec? v
  rw [specs_eq_ok_iff.mp e, specs_eq_ok_iff.mp e', List.forall₂_map_left_iff,
    List.forall₂_map_right_iff] at hvalues
  refine hvalues.imp ?_
  rintro s t ⟨h⟩
  exact h

theorem Refines.inferNode (h : b.Refines a) (ht : a.table = .standard) (hm : a.Monotone)
    (e : a.inferNode id = .ok given) (e' : b.inferNode id = .ok refined) :
    List.Forall₂ Spec.Refines refined given := by
  obtain ⟨n, inputs, hn, hin, hout, -⟩ := inferNode_eq_ok e
  obtain ⟨n', inputs', hn', hin', hout', -⟩ := inferNode_eq_ok e'
  have hnodes := h.node? id
  rw [hn, hn'] at hnodes
  cases hnodes with
  | some hnodes =>
    rw [hnodes.inputs] at hin'
    unfold Arena.infer at hout hout'
    rw [h.table, ht] at hout'
    rw [ht] at hout
    refine (hnodes.op.map _).infer ?_ (h.specs hin hin') hout hout'
    intro i hi
    cases hop : n.op with
    | primitive p => rw [hop] at hi; cases hi
    | subgraph body =>
      rw [hop] at hi
      cases hi
      exact hm id n body hn hop

theorem Refines.inferAll : ∀ {ids : List NodeId} {a b : Arena β}, b.Refines a →
    a.table = .standard → a.Monotone → a.inferAll ids = (a', .ok ()) →
    b.inferAll ids = (b', .ok ()) → b'.Refines a'
  | [], _, _, h, _, _, e, e' => by
    obtain rfl := (Prod.mk.inj e).1
    obtain rfl := (Prod.mk.inj e').1
    exact h
  | id :: ids, a, b, h, ht, hm, e, e' => by
    rw [Arena.inferAll] at e e'
    split at e
    · rename_i specs hspecs
      split at e'
      · rename_i specs' hspecs'
        exact (h.setSpecs (h.inferNode ht hm hspecs hspecs')).inferAll ht
          (hm.modifyNode fun _ _ hop => hop) e e'
      · cases (Prod.mk.inj e').2
    · cases (Prod.mk.inj e).2

omit [Described β] in
theorem Refines.resultSpecs (h : b.Refines a) :
    List.Forall₂ Spec.Refines b.resultSpecs a.resultSpecs := by
  unfold Arena.resultSpecs
  rw [h.results]
  refine List.rel_filterMap ?_ (List.forall₂_same.mpr fun _ _ => rfl)
  rintro id _ rfl
  refine rel_bind (h.node? id) fun {m n} hn => ?_
  rw [hn.inputs]
  cases n.inputs.head? with
  | none => exact .none
  | some v => exact h.spec? v

theorem resultsOn_eq_ok {a : Arena β} {specs outputs : List Spec}
    (e : a.resultsOn specs = .ok outputs) : ∃ bound order inferred,
      a.bindFrom 0 (a.parameters.zip specs) = .ok bound ∧
      bound.bump.topologicalOrder = .ok order ∧
      bound.bump.inferAll order = (inferred, .ok ()) ∧ inferred.resultSpecs = outputs := by
  unfold resultsOn bindParameters at e
  split at e
  · cases e
  · rename_i b hb
    split at hb
    · cases hbound : a.bindFrom 0 (a.parameters.zip specs) with
      | error _ => rw [hbound] at hb; cases hb
      | ok bound =>
        rw [hbound] at hb
        obtain rfl := Except.ok.inj hb
        split at e
        · cases e
        · rename_i c hc
          obtain rfl := Except.ok.inj e
          unfold revalidate at hc
          split at hc
          · cases (Prod.mk.inj hc).2
          · rename_i order horder
            split at hc
            · rename_i inferred hinferred
              obtain rfl := (Prod.mk.inj hc).1
              exact ⟨bound, order, inferred, rfl, horder, hinferred, rfl⟩
            · cases (Prod.mk.inj hc).2
    · cases hb

theorem monotone_interface (a : Arena β) (ht : a.table = .standard) (hm : a.Monotone) :
    a.interface.Monotone := by
  intro given refined outputs outputs' h e e'
  obtain ⟨bound, order, inferred, hbound, horder, hinferred, rfl⟩ := resultsOn_eq_ok e
  obtain ⟨bound', order', inferred', hbound', horder', hinferred', rfl⟩ := resultsOn_eq_ok e'
  obtain ⟨hm, htable⟩ := hm.bindFrom hbound
  have hrefine := (Refines.rfl.bindFrom h hbound hbound').bump
  rw [hrefine.topologicalOrder, horder] at horder'
  obtain rfl := Except.ok.inj horder'
  exact (hrefine.inferAll (htable.trans ht) hm hinferred hinferred').resultSpecs

end Arena

/-! ### Bodies in bodies -/

/-- The body and all bodies in it are inferred under the standard table. -/
inductive Body.Standard : Body → Prop
  | mk {g : Graph} (table : g.table = .standard)
      (bodies : ∀ x n body, g.node? x = some n → n.op = .subgraph body → Standard body) :
      Standard (.mk g)

theorem Body.Standard.monotone {body : Body} (h : body.Standard) : body.interface.Monotone := by
  induction h with
  | @mk g table _ ih =>
    rw [interface, fold_mk]
    refine (g.map interface).monotone_interface table fun x m i hm hop => ?_
    rw [Arena.node?_map] at hm
    obtain ⟨n, hn, rfl⟩ := Option.map_eq_some_iff.mp hm
    cases hn' : n.op with
    | primitive p =>
      rw [Node.map, hn'] at hop
      cases hop
    | subgraph body =>
      rw [Node.map, hn'] at hop
      cases hop
      exact ih x n body hn hn'

/-- Inference is a sound abstraction. On refined inputs it gives, if it succeeds on both, as many
outputs, which refine the former ones; and except for products with transposed weights and for
subgraphs it fails wherever it fails on the inputs themselves. -/
theorem Operation.infer_refines (op : Operation Body)
    (hop : ∀ body, op = .subgraph body → body.Standard) {given refined : List Spec}
    (h : List.Forall₂ Spec.Refines refined given) :
    (∀ outputs outputs',
      CapabilityTable.standard.infer (op.map Described.describe) given = .ok outputs →
      CapabilityTable.standard.infer (op.map Described.describe) refined = .ok outputs' →
      List.Forall₂ Spec.Refines outputs' outputs) ∧
    (op.kind ≠ .fullyConnected → op.kind ≠ .subgraph → ∀ e,
      CapabilityTable.standard.infer (op.map Described.describe) given = .error e →
      ∃ e', CapabilityTable.standard.infer (op.map Described.describe) refined = .error e') := by
  refine ⟨fun outputs outputs' e e' => ?_, fun hk hk' e he => ?_⟩
  · refine (Refines.same _).infer (fun i hi => ?_) h e e'
    cases op with
    | primitive p => cases hi
    | subgraph body =>
      cases hi
      exact (hop body rfl).monotone
  · cases op with
    | subgraph body => exact absurd rfl hk'
    | primitive p =>
      refine (CapabilityTable.covers_infer p ?_ h).exists_error he
      rintro rfl
      exact hk rfl

def flipped : Body := .mk {
  slots := #[
    ⟨0, 0, some ⟨Primitive.parameter ⟨.f32, .unranked⟩, [],
      [⟨⟨.f32, .unranked⟩, [⟨⟨1, 0⟩, 0⟩]⟩], "", .empty⟩⟩,
    ⟨0, 0, some ⟨Primitive.transpose [1, 0], [⟨⟨0, 0⟩, 0⟩],
      [⟨⟨.f32, .ofRank 2⟩, [⟨⟨2, 0⟩, 0⟩]⟩], "", .empty⟩⟩,
    ⟨0, 0, some ⟨Primitive.result, [⟨⟨1, 0⟩, 0⟩], [], "", .empty⟩⟩]
  free := []
  parameters := [⟨0, 0⟩]
  results := [⟨2, 0⟩]
  live := 3
  version := 0
  table := .standard }

theorem standard_flipped : flipped.Standard := by
  refine .mk rfl fun x n body hn hop => ?_
  obtain ⟨s, hs, -, hn⟩ := Arena.node?_eq_some_iff.mp hn
  match x.index, hs with
  | 0, hs | 1, hs | 2, hs =>
    obtain rfl := Option.some.inj hs
    obtain rfl := Option.some.inj hn
    cases hop
  | _ + 3, hs => cases hs

theorem infer_flipped {specs outputs : List Spec}
    (h : (flipped.interface.infer specs).toOption = some outputs) :
    CapabilityTable.standard.infer ((Operation.subgraph flipped).map Described.describe) specs =
      .ok outputs := by
  have hbody : flipped.interface.infer specs = .ok outputs := by
    cases e : flipped.interface.infer specs with
    | error _ => rw [e] at h; cases h
    | ok _ => rw [e] at h; exact congrArg Except.ok (Option.some.inj h)
  simp [CapabilityTable.infer, CapabilityTable.standard, Capability.standard, Rule.subgraph,
    Arity.accepts, Operation.map, Operation.kind, Described.describe, hbody]

/-- A matrix of two rows and three columns where nothing was known before. -/
theorem infer_refines_flipped : flipped.Standard ∧ ∃ outputs outputs',
    CapabilityTable.standard.infer ((Operation.subgraph flipped).map Described.describe)
      [⟨.f32, .unranked⟩] = .ok outputs ∧
    CapabilityTable.standard.infer ((Operation.subgraph flipped).map Described.describe)
      [⟨.f32, .ofSizes [2, 3]⟩] = .ok outputs' ∧
    List.Forall₂ Spec.Refines outputs' outputs := by
  have hopen : CapabilityTable.standard.infer
      ((Operation.subgraph flipped).map Described.describe) [⟨.f32, .unranked⟩] =
        .ok [⟨.f32, .ofRank 2⟩] := by
    refine infer_flipped ?_
    rw [flipped, Body.interface, Body.fold_mk]
    decide +kernel
  have hknown : CapabilityTable.standard.infer
      ((Operation.subgraph flipped).map Described.describe) [⟨.f32, .ofSizes [2, 3]⟩] =
        .ok [⟨.f32, .ofSizes [3, 2]⟩] := by
    refine infer_flipped ?_
    rw [flipped, Body.interface, Body.fold_mk]
    decide +kernel
  have hinputs : List.Forall₂ Spec.Refines [⟨.f32, .ofSizes [2, 3]⟩] [⟨.f32, .unranked⟩] :=
    .cons ⟨rfl, .unranked _⟩ .nil
  exact ⟨standard_flipped, _, _, hopen, hknown, (Operation.infer_refines (.subgraph flipped)
    (fun _ h => Operation.subgraph.inj h ▸ standard_flipped) hinputs).1 _ _ hopen hknown⟩

end TensorGraph
