import TensorGraph.Proofs.Arena.Wiring

/-! # Allocation

A node that reads nothing and that nothing reads goes into a slot no live handle names. Nothing
else of the arena changes by that, and the arena stays well formed.
-/

namespace TensorGraph

theorem countP_modify_gt {α : Type} (p : α → Bool) (f : α → α) (l : List α) (i : Nat) {x : α}
    (hx : l[i]? = some x) (hp : p x = false) (hf : p (f x)) :
    (l.modify i f).countP p = l.countP p + 1 := by
  induction l generalizing i with
  | nil => simp at hx
  | cons y l ih =>
    cases i with
    | zero => simp_all
    | succ i =>
      rw [List.modify_succ_cons, List.countP_cons, List.countP_cons, ih i (by simpa using hx)]
      omega

structure Node.Isolated {β : Type} (n : Node β) : Prop where
  inputs : n.inputs = []
  uses : ∀ o ∈ n.outputs, o.uses = []

theorem Node.isolated_fresh {β : Type} (op : Operation β) (outputs : List Spec) (name : String)
    (annotations : Annotations) : (Node.fresh op outputs name annotations).Isolated where
  inputs := rfl
  uses o ho := by
    obtain ⟨spec, -, rfl⟩ := List.mem_map.mp ho
    rfl

namespace Arena

variable {β : Type} {a b : Arena β} {x id : NodeId} {n : Node β} {v : Value} {u : Use}

/-- One arena is the other with a node in a slot that was vacant or did not exist. -/
structure Allocated (a b : Arena β) (n : Node β) (id : NodeId) : Prop where
  before : ∀ s, a.slots[id.index]? = some s → s.node = none ∧ s.pins = 0
  after : ∀ i, b.slots[i]? =
    if i = id.index then some ⟨id.generation, 0, some n⟩ else a.slots[i]?
  parameters : b.parameters = a.parameters
  results : b.results = a.results
  table : b.table = a.table

namespace Allocated

variable (h : a.Allocated b n id)
include h

theorem not_contains : ¬ a.contains id = true := by
  intro hc
  obtain ⟨m, hm⟩ := contains_iff.mp hc
  obtain ⟨s, hs, -, hn⟩ := node?_eq_some_iff.mp hm
  rw [(h.before s hs).1] at hn
  cases hn

theorem pins_before : a.pins id = 0 := by
  simp only [pins, slot?]
  cases hs : a.slots[id.index]? with
  | none => rfl
  | some s => by_cases hg : s.generation = id.generation <;> simp [Option.filter, hg, h.before s hs]

theorem node?_eq : b.node? x = if x = id then some n else a.node? x := by
  by_cases hi : x.index = id.index
  · have ha : a.node? x = none := by
      cases hx : a.node? x with
      | none => rfl
      | some m =>
        obtain ⟨s, hs, -, hn⟩ := node?_eq_some_iff.mp hx
        rw [(h.before s (hi ▸ hs)).1] at hn
        cases hn
    have hgen : x = id ↔ id.generation = x.generation := by
      cases x
      cases id
      simp_all [eq_comm]
    rw [ha]
    simp only [node?, slot?, h.after, hi, if_true]
    by_cases hg : id.generation = x.generation
    · simp [hgen.mpr hg, Option.filter]
    · have hx : ¬ x = id := fun he => hg (hgen.mp he)
      simp [Option.filter, hg, hx]
  · have hx : ¬ x = id := fun he => hi (he ▸ rfl)
    simp only [node?, slot?, h.after, hi, hx, if_false]

theorem pins_eq : b.pins = a.pins := by
  funext x
  simp only [pins, slot?, h.after]
  split
  · rename_i hi
    have ha : ((a.slots[x.index]?.filter fun s => s.generation == x.generation).map
        fun s => s.pins.toNat).getD 0 = 0 := by
      cases hs : a.slots[x.index]? with
      | none => rfl
      | some s =>
        have hp := (h.before s (hi ▸ hs)).2
        by_cases hg : s.generation = x.generation <;> simp [Option.filter, hg, hp]
    rw [ha]
    by_cases hg : id.generation = x.generation <;> simp [Option.filter, hg]
  · rfl

theorem bare?_eq : b.bare? x = if x = id then some n.bare else a.bare? x := by
  rw [bare?, h.node?_eq, bare?]
  split <;> rfl

theorem producer?_eq (hn : n.Isolated) : b.producer? = a.producer? := by
  funext u
  simp only [producer?, h.node?_eq]
  split
  · rename_i hu
    have ha : a.node? u.node = none := hu ▸ node?_eq_none h.not_contains
    simp [hn.inputs, ha]
  · rfl

theorem producers_eq (hn : n.Isolated) : b.producers = a.producers := by
  funext x
  simp only [producers, h.node?_eq]
  split
  · rename_i hx
    have ha : a.node? x = none := hx ▸ node?_eq_none h.not_contains
    simp [hn.inputs, ha]
  · rfl

theorem uses_eq (hn : n.Isolated) : b.uses = a.uses := by
  funext v
  rw [uses_eq_node?, uses_eq_node?, h.node?_eq]
  split
  · rename_i hv
    have ha : a.node? v.node = none := hv ▸ node?_eq_none h.not_contains
    simp only [ha, Option.bind_some, Option.bind_none, Option.getD_none, List.getElem?_map]
    cases ho : n.outputs[v.port]? with
    | none => rfl
    | some o => exact hn.uses o (List.mem_of_getElem? ho)
  · rfl

theorem contains_eq : b.contains x = (x = id ∨ a.contains x = true) := by
  simp only [contains, h.node?_eq]
  split <;> simp_all

end Allocated

theorem allocated_allocate (h : ∀ i ∈ a.free, a.Vacant i) (n : Node β) :
    a.Allocated (a.allocate n).1 n (a.allocate n).2 := by
  cases hf : a.free with
  | nil =>
    simp only [allocate, hf]
    refine ⟨fun s hs => ?_, fun i => ?_, rfl, rfl, rfl⟩
    · simp at hs
    · simp [Array.getElem?_push]
  | cons index free =>
    obtain ⟨s, hs, hnode, hpins⟩ := h index (hf ▸ List.mem_cons_self)
    simp only [allocate, hf]
    refine ⟨fun t ht => ?_, fun i => ?_, rfl, rfl, rfl⟩
    · obtain rfl : s = t := Option.some.inj (hs.symm.trans ht)
      exact ⟨hnode, hpins⟩
    · simp only [Array.getElem?_modify, hs, Option.map_some, Option.getD_some]
      by_cases hi : i = index
      · simp [hi, hs]
      · simp [hi, Ne.symm hi]

theorem occupied_allocate (h : ∀ i ∈ a.free, a.Vacant i) (n : Node β) :
    (a.allocate n).1.occupied = a.occupied + 1 := by
  cases hf : a.free with
  | nil => simp [allocate, hf, occupied]
  | cons index free =>
    obtain ⟨s, hs, hnode, -⟩ := h index (hf ▸ List.mem_cons_self)
    simp only [allocate, hf, occupied, Array.toList_modify]
    exact countP_modify_gt _ _ _ _ (by simpa using hs) (by simp [hnode]) rfl

theorem WellFormed.allocate (h : a.WellFormed) (hn : n.Isolated) :
    (a.allocate n).1.WellFormed := by
  have hal := allocated_allocate h.free_vacant n
  have hkind {id : NodeId} {kind : Kind} (hid : a.kind? id = some kind) :
      (a.allocate n).1.kind? id = some kind := by
    obtain ⟨m, hm, rfl⟩ := kind?_eq_some_iff.mp hid
    have hne : id ≠ (a.allocate n).2 := fun he =>
      hal.not_contains (he ▸ contains_of_node? hm)
    simp [kind?, hal.node?_eq, hne, hm]
  have hfree : (a.allocate n).1.free = a.free.tail := by
    cases hf : a.free <;> simp [Arena.allocate, hf]
  have hlive : (a.allocate n).1.live = a.live + 1 := by
    cases hf : a.free <;> simp [Arena.allocate, hf]
  have hindex : ∀ i ∈ a.free.tail, i ≠ (a.allocate n).2.index := by
    cases hf : a.free with
    | nil => simp
    | cons index free =>
      have hnodup := h.free_nodup
      rw [hf, List.nodup_cons] at hnodup
      intro i hi he
      simp only [Arena.allocate, hf] at he
      exact hnodup.1 (he ▸ hi)
  exact {
    linked := linked_congr (hal.uses_eq hn) (hal.producer?_eq hn) h.linked
    acyclic := acyclic_congr (hal.producers_eq hn) h.acyclic
    parameters := fun id hid => hkind (h.parameters id (hal.parameters ▸ hid))
    results := fun id hid => hkind (h.results id (hal.results ▸ hid))
    free_nodup := hfree ▸ h.free_nodup.tail
    free_vacant := fun i hi => by
      rw [hfree] at hi
      obtain ⟨s, hs, hvacant⟩ := h.free_vacant i (List.mem_of_mem_tail hi)
      exact ⟨s, by rw [hal.after, if_neg (hindex i hi), hs], hvacant⟩
    live := by rw [hlive, h.live, occupied_allocate h.free_vacant] }

/-! ### Nodes on values that are present -/

section Attached

variable {inputs : List Value}

theorem Allocated.hasOutput (h : a.Allocated b n id) (hv : a.hasOutput v = true) :
    b.hasOutput v = true := by
  obtain ⟨m, hm, hlt⟩ := hasOutput_iff.mp hv
  have hne : v.node ≠ id := fun he => h.not_contains (he ▸ contains_of_node? hm)
  exact hasOutput_iff.mpr ⟨m, by rw [h.node?_eq, if_neg hne, hm], hlt⟩

theorem WellFormed.attached (h : a.WellFormed) (hb : b.WellFormed) (hal : a.Allocated b n id)
    (hn : n.Isolated) (hin : ∀ w ∈ inputs, a.hasOutput w = true) :
    (b.wire id inputs).WellFormed := by
  have hid : b.contains id = true := by rw [hal.contains_eq]; exact .inl rfl
  have hbin : ∀ w ∈ inputs, b.hasOutput w = true := fun w hw => hal.hasOutput (hin w hw)
  have hnone : ∀ u, u.node = id → b.producer? u = none := by
    intro u hu
    simp [producer?, hal.node?_eq, hu, hn.inputs]
  have hproducer (u : Use) : (b.wire id inputs).producer? u =
      if u.node = id then inputs[u.port]? else a.producer? u := by
    rw [producer?_wire hid, hal.producer?_eq hn]
  refine hb.of_sameSlots (sameSlots_wire id inputs) (fun x kind hx => ?_)
    (hb.linked.wire hid hnone hbin) ?_
  · rw [kind?_eq_bare] at hx ⊢
    rw [bare?_wire hid]
    split
    · rename_i he
      obtain ⟨m, hm, rfl⟩ := Option.map_eq_some_iff.mp (he ▸ hx)
      rw [hm]
      rfl
    · exact hx
  · obtain ⟨rank, hrank, hlt⟩ := h.acyclic.exists_rank h.linked
    have hacyclic : (b.wire id inputs).RankedBy fun x =>
        if x = id then a.occupied else rank x := by
      intro x y hr
      obtain ⟨u, v, huv, rfl, rfl⟩ := mem_producers_iff.mp hr
      rw [hproducer] at huv
      have hlive : a.contains v.node = true := by
        split at huv
        · exact contains_of_hasOutput (hin v (List.mem_of_getElem? huv))
        · exact contains_of_hasOutput (h.linked.hasOutput huv)
      have hv : v.node ≠ id := fun he => hal.not_contains (he ▸ hlive)
      simp only [hv, if_false]
      split
      · exact hlt _ hlive
      · rename_i hu
        rw [if_neg hu] at huv
        exact hrank _ _ (reads_of_producer? huv)
    exact hacyclic.acyclic

end Attached

def enlist (a : Arena β) (kind : Kind) (id : NodeId) : Arena β :=
  match kind with
  | .result => { a with results := a.results ++ [id] }
  | .parameter => { a with parameters := a.parameters ++ [id] }
  | _ => a

theorem WellFormed.enlist (h : a.WellFormed) {kind : Kind} (hid : a.kind? id = some kind) :
    (a.enlist kind id).WellFormed := by
  unfold Arena.enlist
  split
  · exact { h with
      results := by
        intro x hx
        rcases List.mem_append.mp hx with hx | hx
        · exact h.results x hx
        · rw [List.mem_singleton.mp hx]
          exact hid }
  · exact { h with
      parameters := by
        intro x hx
        rcases List.mem_append.mp hx with hx | hx
        · exact h.parameters x hx
        · rw [List.mem_singleton.mp hx]
          exact hid }
  · exact h

def parameterNode (name : String) (spec : Spec) : Node β :=
  .fresh (Primitive.parameter spec) [spec] name .empty

theorem addParameter_eq (a : Arena β) (name : String) (spec : Spec) :
    a.addParameter name spec =
      ((a.allocate (parameterNode name spec)).1.enlist .parameter
        (a.allocate (parameterNode name spec)).2, (a.allocate (parameterNode name spec)).2) := rfl

theorem WellFormed.addParameter (h : a.WellFormed) (name : String) (spec : Spec) :
    (a.addParameter name spec).1.WellFormed := by
  have hal := allocated_allocate h.free_vacant (parameterNode name spec)
  have hkind : (a.allocate (parameterNode name spec)).1.kind?
      (a.allocate (parameterNode name spec)).2 = some .parameter := by
    rw [kind?, hal.node?_eq, if_pos rfl]
    rfl
  rw [addParameter_eq]
  exact (h.allocate (Node.isolated_fresh _ _ _ _)).enlist hkind

theorem addVerbatim_eq_ok_iff {op : Operation β} {inputs : List Value} {outputs : List Spec} :
    a.addVerbatim op inputs outputs = .ok (b, id) ↔
      (∀ w ∈ inputs, a.hasOutput w = true) ∧
        ∃ c, a.allocate (.fresh op outputs "" .empty) = (c, id) ∧
          b = (c.wire id inputs).enlist op.kind id := by
  have hin : (∀ w ∈ inputs, a.hasOutput w = true) ↔
      inputs.find? (fun v => !a.hasOutput v) = none := by
    simp
  rw [hin, addVerbatim]
  cases inputs.find? fun v => !a.hasOutput v with
  | some v => simp
  | none =>
    cases a.allocate (.fresh op outputs "" .empty) with
    | mk c x =>
      simp only [true_and, Prod.mk.injEq]
      constructor
      · intro e
        unfold enlist
        split at e <;> obtain ⟨rfl, rfl⟩ := Prod.mk.inj (Except.ok.inj e) <;> simp_all
      · rintro ⟨_, ⟨rfl, rfl⟩, rfl⟩
        unfold enlist
        split <;> simp_all

theorem WellFormed.addVerbatim (h : a.WellFormed) {op : Operation β} {inputs : List Value}
    {outputs : List Spec} (e : a.addVerbatim op inputs outputs = .ok (b, id)) :
    b.WellFormed := by
  obtain ⟨hin, c, hc, rfl⟩ := addVerbatim_eq_ok_iff.mp e
  have hn := Node.isolated_fresh op outputs "" .empty
  have hal := allocated_allocate h.free_vacant (.fresh op outputs "" .empty)
  have hwf := h.allocate hn
  rw [hc] at hal hwf
  refine (h.attached hwf hal hn hin).enlist ?_
  rw [kind?_eq_bare, bare?_wire (by rw [hal.contains_eq]; exact .inl rfl), if_pos rfl,
    hal.bare?_eq, if_pos rfl]
  rfl

/-! ### One more node -/

structure Grown (a b : Arena β) (id : NodeId) (op : Operation β) (inputs : List Value) : Prop where
  wellFormed : b.WellFormed
  fresh : ¬ a.contains id = true
  old : ∀ x, x ≠ id → b.bare? x = a.bare? x
  new : ∃ n, b.bare? id = some n ∧ n.op = op ∧ n.inputs = inputs

theorem bare?_enlist (kind : Kind) (id : NodeId) : (a.enlist kind id).bare? = a.bare? := by
  unfold enlist
  split <;> rfl

theorem enlist_of_not_isAnchor {kind : Kind} (h : kind.isAnchor = false) (id : NodeId) :
    a.enlist kind id = a := by
  unfold enlist
  split
  · cases h
  · cases h
  · rfl

theorem WellFormed.grown_addVerbatim (h : a.WellFormed) {op : Operation β}
    {inputs : List Value} {outputs : List Spec}
    (e : a.addVerbatim op inputs outputs = .ok (b, id)) : a.Grown b id op inputs := by
  have hwf := h.addVerbatim e
  obtain ⟨-, c, hc, rfl⟩ := addVerbatim_eq_ok_iff.mp e
  have hal := allocated_allocate h.free_vacant (.fresh op outputs "" .empty)
  rw [hc] at hal
  have hid : c.contains id = true := by
    rw [hal.contains_eq]
    exact .inl rfl
  refine ⟨hwf, hal.not_contains, fun x hx => ?_, ?_⟩
  · rw [bare?_enlist, bare?_wire hid, if_neg hx, hal.bare?_eq, if_neg hx]
  · rw [bare?_enlist, bare?_wire hid, if_pos rfl, hal.bare?_eq, if_pos rfl]
    exact ⟨_, rfl, rfl, rfl⟩

theorem addVerbatim_lists (h : a.WellFormed) {op : Operation β} {inputs : List Value}
    {outputs : List Spec} (e : a.addVerbatim op inputs outputs = .ok (b, id)) :
    b.parameters = (a.enlist op.kind id).parameters ∧
      b.results = (a.enlist op.kind id).results := by
  obtain ⟨-, c, hc, rfl⟩ := addVerbatim_eq_ok_iff.mp e
  have hal := allocated_allocate h.free_vacant (.fresh op outputs "" .empty)
  rw [hc] at hal
  have hslots := sameSlots_wire (a := c) id inputs
  have hlists := And.intro (hslots.parameters.trans hal.parameters)
    (hslots.results.trans hal.results)
  unfold enlist
  split
  · exact ⟨hlists.1, congrArg (· ++ [id]) hlists.2⟩
  · exact ⟨congrArg (· ++ [id]) hlists.1, hlists.2⟩
  · exact hlists

/-- The new node reads the inputs and has the outputs that it was given. -/
theorem WellFormed.bare?_addVerbatim (h : a.WellFormed) {op : Operation β}
    {inputs : List Value} {outputs : List Spec}
    (e : a.addVerbatim op inputs outputs = .ok (b, id)) :
    b.bare? id = some { Node.fresh op outputs "" .empty with inputs } := by
  obtain ⟨-, c, hc, rfl⟩ := addVerbatim_eq_ok_iff.mp e
  have hal := allocated_allocate h.free_vacant (.fresh op outputs "" .empty)
  rw [hc] at hal
  have hid : c.contains id = true := by
    rw [hal.contains_eq]
    exact .inl rfl
  rw [bare?_enlist, bare?_wire hid, if_pos rfl, hal.bare?_eq, if_pos rfl]
  simp [Node.fresh, Node.bare]

theorem table_enlist (kind : Kind) (id : NodeId) : (a.enlist kind id).table = a.table := by
  unfold enlist
  split <;> rfl

theorem WellFormed.table_addVerbatim (h : a.WellFormed) {op : Operation β}
    {inputs : List Value} {outputs : List Spec}
    (e : a.addVerbatim op inputs outputs = .ok (b, id)) : b.table = a.table := by
  obtain ⟨-, c, hc, rfl⟩ := addVerbatim_eq_ok_iff.mp e
  have hal := allocated_allocate h.free_vacant (.fresh op outputs "" .empty)
  rw [hc] at hal
  exact (table_enlist _ _).trans ((sameSlots_wire id inputs).table.trans hal.table)

theorem WellFormed.grown_addParameter (h : a.WellFormed) (name : String) (spec : Spec) :
    a.Grown (a.addParameter name spec).1 (a.addParameter name spec).2
      (Primitive.parameter spec) [] := by
  have hal := allocated_allocate h.free_vacant (parameterNode name spec)
  refine ⟨h.addParameter name spec, hal.not_contains, fun x hx => ?_, ?_⟩
  · rw [addParameter_eq] at hx ⊢
    rw [bare?_enlist, hal.bare?_eq, if_neg hx]
  · rw [addParameter_eq, bare?_enlist, hal.bare?_eq, if_pos rfl]
    exact ⟨_, rfl, rfl, rfl⟩

theorem WellFormed.bare?_addParameter (h : a.WellFormed) (name : String) (spec : Spec) :
    (a.addParameter name spec).1.bare? (a.addParameter name spec).2 =
      some (parameterNode name spec) := by
  have hal := allocated_allocate h.free_vacant (parameterNode name spec)
  rw [addParameter_eq, bare?_enlist, hal.bare?_eq, if_pos rfl]
  rfl

theorem WellFormed.table_addParameter (h : a.WellFormed) (name : String) (spec : Spec) :
    (a.addParameter name spec).1.table = a.table := by
  have hal := allocated_allocate h.free_vacant (parameterNode name spec)
  rw [addParameter_eq]
  exact (table_enlist _ _).trans hal.table

theorem addParameter_lists (h : a.WellFormed) (name : String) (spec : Spec) :
    (a.addParameter name spec).1.parameters = a.parameters ++ [(a.addParameter name spec).2] ∧
      (a.addParameter name spec).1.results = a.results := by
  have hal := allocated_allocate h.free_vacant (parameterNode name spec)
  rw [addParameter_eq]
  exact ⟨congrArg (· ++ [_]) hal.parameters, hal.results⟩

section Grown

variable {op : Operation β} {inputs : List Value}

theorem Grown.contains (h : a.Grown b id op inputs) : b.contains id = true := by
  obtain ⟨n, hn, -⟩ := h.new
  exact contains_of_bare? hn

theorem Grown.not_mem (h : a.Grown b id op inputs) (ha : a.WellFormed) :
    id ∉ a.parameters := by
  intro hid
  exact h.fresh (contains_of_kind? (ha.parameters id hid))

theorem Grown.part (h : a.Grown b id op inputs) (hx : a.contains x = true) :
    a.bare? x = b.bare? x :=
  (h.old x fun he => h.fresh (he ▸ hx)).symm

/-- The node may be given another name and other annotations. -/
theorem Grown.remark (h : a.Grown b id op inputs) (name : String) (annotations : Annotations) :
    a.Grown (b.modifyNode id.index fun m => { m with name, annotations }) id op inputs := by
  obtain ⟨n, hn⟩ := contains_iff.mp h.contains
  have hlive (x : NodeId) : (b.modifyNode id.index fun m => { m with name, annotations }).node? x =
      if x = id then some { n with name, annotations } else b.node? x :=
    node?_modifyNode_of_live hn _
  refine ⟨h.wellFormed.modifyNode fun x m _ _ => ⟨rfl, rfl, rfl⟩, h.fresh, fun x hx => ?_, ?_⟩
  · rw [← h.old x hx, bare?, bare?, hlive, if_neg hx]
  · obtain ⟨m, hm, rfl, rfl⟩ := h.new
    obtain ⟨k, hk, rfl⟩ := Option.map_eq_some_iff.mp hm
    obtain rfl := Option.some.inj (hn.symm.trans hk)
    rw [bare?, hlive, if_pos rfl]
    exact ⟨_, rfl, rfl, rfl⟩

end Grown

end Arena

end TensorGraph
