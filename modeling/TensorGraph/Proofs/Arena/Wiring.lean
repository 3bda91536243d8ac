import TensorGraph.Proofs.Arena.WellFormed

/-! # Wiring

What each edit does to the bare nodes, to the lists of uses and to the slots. From that, taking a
slot and attaching inputs keep an arena well formed, and repointing keeps its two records of
every edge in agreement.
-/

namespace TensorGraph

theorem Node.bare_modifyOutput {β : Type} (n : Node β) (port : Nat) (f : Output → Output)
    (hf : ∀ o, (f o).spec = o.spec) : (n.modifyOutput port f).bare = n.bare := by
  simp only [Node.modifyOutput, Node.bare, Node.mk.injEq, true_and, and_true]
  refine List.ext_getElem? fun i => ?_
  simp only [List.getElem?_map, List.getElem?_modify]
  cases n.outputs[i]? with
  | none => rfl
  | some o => by_cases hi : port = i <;> simp [hi, hf]

namespace Arena

variable {β : Type} {a b c : Arena β} {x id : NodeId} {n : Node β} {v w : Value} {u : Use}

structure SameSlots (a b : Arena β) : Prop where
  free : b.free = a.free
  live : b.live = a.live
  occupied : b.occupied = a.occupied
  vacant : ∀ index, a.Vacant index → b.Vacant index
  pins : b.pins = a.pins
  parameters : b.parameters = a.parameters
  results : b.results = a.results
  table : b.table = a.table

namespace SameSlots

theorem refl (a : Arena β) : a.SameSlots a := ⟨rfl, rfl, rfl, fun _ h => h, rfl, rfl, rfl, rfl⟩

theorem trans (h : a.SameSlots b) (h' : b.SameSlots c) : a.SameSlots c where
  free := h'.free.trans h.free
  live := h'.live.trans h.live
  occupied := h'.occupied.trans h.occupied
  vacant index hv := h'.vacant index (h.vacant index hv)
  pins := h'.pins.trans h.pins
  parameters := h'.parameters.trans h.parameters
  results := h'.results.trans h.results
  table := h'.table.trans h.table

theorem modifyNode (a : Arena β) (i : Nat) (f : Node β → Node β) :
    a.SameSlots (a.modifyNode i f) where
  free := rfl
  live := rfl
  occupied := occupied_modifyNode a i f
  vacant index hv := by
    obtain ⟨s, hs, hn, hp⟩ := hv
    by_cases hi : i = index
    · exact ⟨{ s with node := s.node.map f }, by simp [Arena.modifyNode, Array.getElem?_modify,
        hi, hs], by simp [hn], hp⟩
    · exact ⟨s, by simp [Arena.modifyNode, Array.getElem?_modify, hi, hs], hn, hp⟩
  pins := funext fun _ => pins_modifyNode i f
  parameters := rfl
  results := rfl
  table := rfl

theorem bump (a : Arena β) : a.SameSlots a.bump := ⟨rfl, rfl, rfl, fun _ h => h, rfl, rfl, rfl, rfl⟩

theorem foldl {α : Type} (f : Arena β → α → Arena β) (hf : ∀ (a : Arena β) i, a.SameSlots (f a i))
    (l : List α) (a : Arena β) : a.SameSlots (l.foldl f a) := by
  induction l generalizing a with
  | nil => exact refl a
  | cons i l ih => exact (hf a i).trans (ih (f a i))

end SameSlots

theorem WellFormed.of_sameSlots (h : a.WellFormed) (hs : a.SameSlots b)
    (hk : ∀ id kind, a.kind? id = some kind → b.kind? id = some kind)
    (hl : b.Linked) (hc : b.Acyclic) : b.WellFormed where
  linked := hl
  acyclic := hc
  parameters id hid := hk id _ (h.parameters id (hs.parameters ▸ hid))
  results id hid := hk id _ (h.results id (hs.results ▸ hid))
  free_nodup := hs.free ▸ h.free_nodup
  free_vacant index hi := hs.vacant index (h.free_vacant index (hs.free ▸ hi))
  live := by rw [hs.live, hs.occupied, h.live]

theorem linked_congr (hu : b.uses = a.uses) (hp : b.producer? = a.producer?) (h : a.Linked) :
    b.Linked := by
  intro v u
  rw [hu, hp]
  exact h v u

theorem acyclic_congr (hp : b.producers = a.producers) (h : a.Acyclic) : b.Acyclic := by
  have hr : b.Reads = a.Reads := by
    funext x y
    rw [Reads, hp, Reads]
  intro x
  rw [hr]
  exact h x

/-! ### Changes of a single node -/

theorem uses_eq_node? : a.uses v =
    ((a.node? v.node).bind fun n => (n.outputs.map Output.uses)[v.port]?).getD [] := by
  cases h : a.node? v.node with
  | none => simp [uses, output?, h]
  | some n => cases ho : n.outputs[v.port]? <;> simp [uses, output?, h, ho]

theorem bare?_of_node? (h : b.node? = a.node?) : b.bare? = a.bare? := by
  funext x
  rw [bare?, h, bare?]

theorem uses_of_node? (h : b.node? = a.node?) : b.uses = a.uses := by
  funext v
  rw [uses_eq_node?, h, ← uses_eq_node?]

theorem uses_modifyNode {f : Node β → Node β}
    (hf : ∀ n, (f n).outputs.map Output.uses = n.outputs.map Output.uses) (i : Nat) :
    (a.modifyNode i f).uses = a.uses := by
  funext v
  rw [uses_eq_node?, uses_eq_node?, node?_modifyNode]
  split
  · rw [Option.bind_map]
    simp only [Function.comp_def, hf]
  · rfl

theorem bare?_modifyNode (i : Nat) (f : Node β → Node β) : (a.modifyNode i f).bare? x =
    if x.index = i then (a.node? x).map fun n => (f n).bare else a.bare? x := by
  rw [bare?, node?_modifyNode]
  split
  · rw [Option.map_map]
    rfl
  · rfl

theorem bare?_modifyNode_of_bare {f : Node β → Node β} (hf : ∀ n, (f n).bare = n.bare) (i : Nat) :
    (a.modifyNode i f).bare? = a.bare? := by
  funext x
  rw [bare?_modifyNode]
  split
  · simp [hf, bare?]
  · rfl

/-- A change of a node that leaves alone what is wired and of which kind it is. -/
structure KeepsWiring (n m : Node β) : Prop where
  uses : m.outputs.map Output.uses = n.outputs.map Output.uses
  inputs : m.inputs = n.inputs
  kind : m.kind = n.kind

theorem WellFormed.modifyNode (h : a.WellFormed) {i : Nat} {f : Node β → Node β}
    (hf : ∀ x n, a.node? x = some n → x.index = i → KeepsWiring n (f n)) :
    (a.modifyNode i f).WellFormed := by
  have huses : (a.modifyNode i f).uses = a.uses := by
    funext v
    rw [uses_eq_node?, uses_eq_node?, node?_modifyNode]
    split
    · rename_i hi
      cases hn : a.node? v.node with
      | none => rfl
      | some n => rw [Option.map_some, Option.bind_some, Option.bind_some, (hf _ n hn hi).uses]
    · rfl
  have hproducer : (a.modifyNode i f).producer? = a.producer? := by
    funext u
    simp only [producer?, node?_modifyNode]
    split
    · rename_i hi
      cases hn : a.node? u.node with
      | none => rfl
      | some n => simp [(hf _ n hn hi).inputs]
    · rfl
  have hproducers : (a.modifyNode i f).producers = a.producers := by
    funext x
    simp only [producers, node?_modifyNode]
    split
    · rename_i hi
      cases hn : a.node? x with
      | none => rfl
      | some n => simp [(hf _ n hn hi).inputs]
    · rfl
  refine h.of_sameSlots (.modifyNode a i f) (fun id kind hid => ?_)
    (linked_congr huses hproducer h.linked) (acyclic_congr hproducers h.acyclic)
  obtain ⟨n, hn, rfl⟩ := kind?_eq_some_iff.mp hid
  simp only [kind?, node?_modifyNode, hn]
  split
  · rename_i hi
    exact congrArg some (hf id n hn hi).kind
  · rfl

theorem WellFormed.modifyLive (h : a.WellFormed) (hid : a.node? id = some n)
    {f : Node β → Node β} (hf : KeepsWiring n (f n)) : (a.modifyNode id.index f).WellFormed := by
  refine h.modifyNode fun x m hm hx => ?_
  obtain rfl := eq_of_node?_index hm hid hx
  obtain rfl : n = m := Option.some.inj (hid.symm.trans hm)
  exact hf

@[simp] theorem bare?_bump : a.bump.bare? = a.bare? := rfl

@[simp] theorem uses_bump : a.bump.uses = a.uses := rfl

theorem WellFormed.bump (h : a.WellFormed) : a.bump.WellFormed :=
  h.of_sameSlots (.bump a) (fun _ _ hk => hk) h.linked h.acyclic

/-! ### Lists of uses -/

section ModifyUses

variable (f : List Use → List Use)

theorem bare?_modifyUses (w : Value) :
    (a.modifyOutput w fun o => { o with uses := f o.uses }).bare? = a.bare? := by
  have hf (n : Node β) :
      (n.modifyOutput w.port fun o => { o with uses := f o.uses }).bare = n.bare :=
    n.bare_modifyOutput w.port _ fun _ => rfl
  rw [modifyOutput, bare?_modifyNode_of_bare hf]

theorem uses_modifyUses (h : a.hasOutput w = true) :
    (a.modifyOutput w fun o => { o with uses := f o.uses }).uses v =
      if v = w then f (a.uses w) else a.uses v := by
  obtain ⟨n, hn, hlt⟩ := hasOutput_iff.mp h
  rw [uses_eq_node?, modifyOutput, node?_modifyNode_of_live hn]
  by_cases hnode : v.node = w.node
  · rw [if_pos hnode]
    by_cases hport : v.port = w.port
    · have hv : v = w := by
        cases v
        cases w
        simp_all
      subst hv
      simp [Node.modifyOutput, uses, output?, hn, List.getElem?_eq_getElem hlt]
    · have hv : v ≠ w := fun he => hport (he ▸ rfl)
      simp [Node.modifyOutput, hv, Ne.symm hport, uses_eq_node?, hnode, hn]
  · have hv : v ≠ w := fun he => hnode (he ▸ rfl)
    rw [if_neg hnode, if_neg hv, uses_eq_node?]

end ModifyUses

theorem bare?_addUse (w : Value) (u : Use) : (a.addUse w u).bare? = a.bare? :=
  bare?_modifyUses (· ++ [u]) w

theorem uses_addUse (h : a.hasOutput w = true) (u : Use) :
    (a.addUse w u).uses v = if v = w then a.uses w ++ [u] else a.uses v :=
  uses_modifyUses (· ++ [u]) h

theorem bare?_removeUse (w : Value) (u : Use) : (a.removeUse w u).bare? = a.bare? :=
  bare?_modifyUses (·.filter (· ≠ u)) w

theorem uses_removeUse (h : a.hasOutput w = true) (u : Use) :
    (a.removeUse w u).uses v = if v = w then (a.uses w).filter (· ≠ u) else a.uses v :=
  uses_modifyUses (·.filter (· ≠ u)) h

/-! ### Attaching inputs -/

/-- The places of a list that hold certain values, as inputs of a node. -/
def usesWhere (id : NodeId) (inputs : List Value) (p : Value → Bool) : List Use :=
  (inputs.zipIdx.filter fun x => p x.1).map fun x => id.input x.2

theorem mem_usesWhere {inputs : List Value} {p : Value → Bool} :
    u ∈ usesWhere id inputs p ↔ u.node = id ∧ ∃ v, inputs[u.port]? = some v ∧ p v = true := by
  simp only [usesWhere, List.mem_map, List.mem_filter, Prod.exists, List.mem_zipIdx_iff_getElem?]
  constructor
  · rintro ⟨w, port, ⟨hw, hp⟩, rfl⟩
    exact ⟨rfl, w, hw, hp⟩
  · rintro ⟨rfl, v, hv, hp⟩
    exact ⟨v, u.port, ⟨hv, hp⟩, rfl⟩

theorem nodup_usesWhere (id : NodeId) (inputs : List Value) (p : Value → Bool) :
    (usesWhere id inputs p).Nodup := by
  have hdistinct : (inputs.zipIdx).Pairwise fun x y => x.2 ≠ y.2 :=
    List.pairwise_map.mp (by
      rw [List.zipIdx_map_snd]
      exact List.nodup_range')
  refine (hdistinct.filter _).map _ ?_
  intro x y hxy he
  exact hxy (congrArg Use.port he)

theorem length_usesWhere (id : NodeId) (inputs : List Value) (p : Value → Bool) :
    (usesWhere id inputs p).length = inputs.countP p := by
  rw [usesWhere, List.length_map, ← List.countP_eq_length_filter]
  conv_rhs => rw [← List.zipIdx_map_fst 0 inputs, List.countP_map]
  rfl

def usesAmong (id : NodeId) (inputs : List Value) (v : Value) : List Use :=
  usesWhere id inputs (· = v)

theorem mem_usesAmong {inputs : List Value} :
    u ∈ usesAmong id inputs v ↔ u.node = id ∧ inputs[u.port]? = some v := by
  simp [usesAmong, mem_usesWhere]

theorem count_usesAmong {inputs : List Value} : (usesAmong id inputs v).count u =
    if u.node = id ∧ inputs[u.port]? = some v then 1 else 0 := by
  rw [usesAmong, (nodup_usesWhere id inputs _).count, ← usesAmong]
  simp only [mem_usesAmong]

def attach (a : Arena β) (id : NodeId) (inputs : List Value) : Arena β :=
  inputs.zipIdx.foldl (fun a (v, port) => a.addUse v (id.input port)) a

theorem sameSlots_attach (id : NodeId) (inputs : List Value) :
    a.SameSlots (a.attach id inputs) :=
  .foldl _ (fun a _ => .modifyNode a _ _) _ a

theorem bare?_attach (id : NodeId) (inputs : List Value) :
    (a.attach id inputs).bare? = a.bare? := by
  rw [attach]
  induction inputs.zipIdx generalizing a with
  | nil => rfl
  | cons x l ih => rw [List.foldl_cons, ih, bare?_addUse]

theorem uses_attach {inputs : List Value} (h : ∀ w ∈ inputs, a.hasOutput w = true) :
    (a.attach id inputs).uses v = a.uses v ++ usesAmong id inputs v := by
  have h' : ∀ x ∈ inputs.zipIdx, a.hasOutput x.1 = true := fun x hx =>
    h _ (List.fst_mem_of_mem_zipIdx hx)
  clear h
  rw [attach, usesAmong, usesWhere]
  generalize inputs.zipIdx = l at h'
  induction l generalizing a with
  | nil => simp
  | cons x l ih =>
    have hx := h' x List.mem_cons_self
    rw [List.foldl_cons, ih fun y hy => ?_, uses_addUse hx]
    · by_cases hv : v = x.1
      · simp [hv]
      · simp [hv, Ne.symm hv]
    · rw [hasOutput_congr (bare?_addUse _ _)]
      exact h' y (List.mem_cons_of_mem _ hy)

section Wire

variable {inputs : List Value}

theorem wire_eq : a.wire id inputs =
    ((a.attach id inputs).modifyNode id.index fun n => { n with inputs }).bump := rfl

theorem sameSlots_wire (id : NodeId) (inputs : List Value) : a.SameSlots (a.wire id inputs) :=
  (sameSlots_attach id inputs).trans ((SameSlots.modifyNode _ _ _).trans (.bump _))

theorem bare?_wire (h : a.contains id = true) : (a.wire id inputs).bare? x =
    if x = id then (a.bare? id).map fun n => { n with inputs } else a.bare? x := by
  rw [← contains_congr (bare?_attach id inputs)] at h
  obtain ⟨n, hn⟩ := contains_iff.mp h
  rw [wire_eq, bare?_bump, bare?, node?_modifyNode_of_live hn, ← bare?_attach id inputs]
  split
  · rw [bare?, hn]
    rfl
  · rfl

theorem uses_wire (h : ∀ w ∈ inputs, a.hasOutput w = true) :
    (a.wire id inputs).uses v = a.uses v ++ usesAmong id inputs v := by
  have hf (n : Node β) : ({ n with inputs } : Node β).outputs.map Output.uses =
      n.outputs.map Output.uses := rfl
  rw [← uses_attach h, wire_eq, uses_bump, uses_modifyNode hf]

theorem producer?_wire (h : a.contains id = true) : (a.wire id inputs).producer? u =
    if u.node = id then inputs[u.port]? else a.producer? u := by
  rw [producer?_eq_bare, bare?_wire h, producer?_eq_bare]
  split
  · rw [contains_eq_bare] at h
    obtain ⟨n, hn⟩ := Option.isSome_iff_exists.mp h
    simp [hn]
  · rfl

theorem Linked.wire (hl : a.Linked) (h : a.contains id = true)
    (hid : ∀ u, u.node = id → a.producer? u = none)
    (hin : ∀ w ∈ inputs, a.hasOutput w = true) : (a.wire id inputs).Linked := by
  intro v u
  rw [uses_wire hin, List.count_append, hl v u, count_usesAmong, producer?_wire h]
  by_cases hu : u.node = id
  · simp [hu, hid u hu]
  · simp [hu]

end Wire

/-! ### Repointing -/

theorem bare?_readInstead (h : a.contains u.node = true) (w : Value) :
    (a.readInstead u w).bare? x = if x = u.node
      then (a.bare? x).map fun n => { n with inputs := n.inputs.set u.port w }
      else a.bare? x := by
  obtain ⟨n, hn⟩ := contains_iff.mp h
  rw [readInstead, bare?, node?_modifyNode_of_live hn]
  split
  · rename_i hx
    rw [hx, bare?, hn]
    rfl
  · rfl

theorem bare?_foldl_readInstead {us : List Use} (h : ∀ u ∈ us, a.contains u.node = true) :
    (us.foldl (fun a u => a.readInstead u w) a).bare? x = (a.bare? x).map fun n =>
      { n with inputs := n.inputs.mapIdx fun port v => if x.input port ∈ us then w else v } := by
  induction us generalizing a with
  | nil => cases hx : a.bare? x <;> simp [hx, List.mapIdx_eq_zipIdx_map]
  | cons u us ih =>
    have hc (y : NodeId) : (a.readInstead u w).contains y = a.contains y :=
      contains_modifyNode _ _
    rw [List.foldl_cons, ih fun v hv => (hc _).trans (h v (List.mem_cons_of_mem _ hv)),
      bare?_readInstead (h u List.mem_cons_self)]
    split
    · rename_i hx
      rw [Option.map_map]
      congr 1
      funext n
      simp only [Function.comp_apply, Node.mk.injEq, true_and, and_true]
      refine List.ext_getElem? fun i => ?_
      simp only [List.getElem?_mapIdx, List.getElem?_set, List.mem_cons]
      have hu : (x.input i = u) ↔ u.port = i := by
        subst hx
        cases u
        simp [NodeId.input, eq_comm]
      simp only [hu]
      by_cases hi : u.port = i
      · by_cases hlt : i < n.inputs.length
        · simp [hi, hlt]
        · simp [hi, hlt]
      · simp [hi]
    · rename_i hx
      have hu (i : Nat) : x.input i ≠ u := fun he => hx (he ▸ rfl)
      simp [hu]

theorem uses_readInstead (u : Use) (w : Value) : (a.readInstead u w).uses = a.uses := by
  have hf (n : Node β) : ({ n with inputs := n.inputs.set u.port w } : Node β).outputs.map
      Output.uses = n.outputs.map Output.uses := rfl
  rw [readInstead, uses_modifyNode hf]

theorem hasOutput_readInstead (u : Use) (w : Value) :
    (a.readInstead u w).hasOutput = a.hasOutput := by
  funext v
  simp only [hasOutput, output?, readInstead, node?_modifyNode]
  split
  · cases a.node? v.node <;> rfl
  · rfl

theorem hasOutput_foldl_readInstead (us : List Use) (w : Value) :
    (us.foldl (fun a u => a.readInstead u w) a).hasOutput = a.hasOutput := by
  induction us generalizing a with
  | nil => rfl
  | cons u us ih => rw [List.foldl_cons, ih, hasOutput_readInstead]

theorem uses_foldl_readInstead (us : List Use) (w : Value) :
    (us.foldl (fun a u => a.readInstead u w) a).uses = a.uses := by
  induction us generalizing a with
  | nil => rfl
  | cons u us ih => rw [List.foldl_cons, ih, uses_readInstead]

section Repoint

variable {old new : Value}

/-- What is read in the place of a value once one value took the place of another. -/
def instead (old new v : Value) : Value := if v = old then new else v

theorem sameSlots_repoint (old new : Value) : a.SameSlots (a.repoint old new) :=
  ((SameSlots.modifyNode _ _ _).trans
    (.foldl _ (fun a _ => .modifyNode a _ _) _ _)).trans
      ((SameSlots.modifyNode _ _ _).trans (.bump _))

theorem bare?_repoint (hl : a.Linked) : (a.repoint old new).bare? x =
    (a.bare? x).map fun n => { n with inputs := n.inputs.map (instead old new) } := by
  have hlive : ∀ u ∈ a.uses old,
      (a.modifyOutput old fun o => { o with uses := [] }).contains u.node = true := by
    intro u hu
    rw [contains_congr (bare?_modifyUses (fun _ => []) old)]
    obtain ⟨n, hn, -⟩ := producer?_eq_some_iff.mp (hl.mem_uses_iff.mp hu)
    exact contains_of_node? hn
  rw [repoint, bare?_bump, bare?_modifyUses (· ++ a.uses old), bare?_foldl_readInstead hlive,
    bare?_modifyUses fun _ => []]
  cases hx : a.bare? x with
  | none => rfl
  | some n =>
    simp only [Option.map_some, Option.some.injEq, Node.mk.injEq, true_and, and_true]
    refine List.ext_getElem? fun i => ?_
    have hmem : x.input i ∈ a.uses old ↔ n.inputs[i]? = some old := by
      rw [hl.mem_uses_iff, producer?_eq_bare, NodeId.input, hx, Option.bind_some]
    simp only [List.getElem?_mapIdx, List.getElem?_map, hmem]
    cases n.inputs[i]? <;> simp [instead]

theorem uses_repoint (ho : a.hasOutput old = true) (hn : a.hasOutput new = true)
    (hne : new ≠ old) : (a.repoint old new).uses v =
      if v = old then [] else if v = new then a.uses new ++ a.uses old else a.uses v := by
  have hb : ((a.uses old).foldl (fun a u => a.readInstead u new)
      (a.modifyOutput old fun o => { o with uses := [] })).hasOutput new = true := by
    rw [hasOutput_foldl_readInstead, hasOutput_congr (bare?_modifyUses (fun _ => []) old), hn]
  rw [repoint, uses_bump, uses_modifyUses (· ++ a.uses old) hb, uses_foldl_readInstead,
    uses_modifyUses (fun _ => []) ho, uses_modifyUses (fun _ => []) ho]
  split
  · rename_i hv
    simp [hv, hne]
  · simp

theorem producer?_repoint (hl : a.Linked) :
    (a.repoint old new).producer? u = (a.producer? u).map (instead old new) := by
  rw [producer?_eq_bare, bare?_repoint hl, producer?_eq_bare, Option.bind_map]
  cases a.bare? u.node <;> simp

theorem Linked.repoint (hl : a.Linked) (ho : a.hasOutput old = true)
    (hn : a.hasOutput new = true) (hne : new ≠ old) : (a.repoint old new).Linked := by
  intro v u
  rw [uses_repoint ho hn hne, producer?_repoint hl]
  by_cases hv : v = old
  · subst hv
    have hnot : (a.producer? u).map (instead v new) ≠ some v := by
      cases a.producer? u with
      | none => simp
      | some w => by_cases hw : w = v <;> simp [instead, hw, hne]
    simp [hnot]
  · rw [if_neg hv]
    by_cases hvn : v = new
    · subst hvn
      rw [if_pos rfl, List.count_append, hl v u, hl old u]
      cases a.producer? u with
      | none => simp
      | some w => by_cases hw : w = old <;> simp [instead, hw, hne.symm]
    · rw [if_neg hvn, hl v u]
      cases a.producer? u with
      | none => simp
      | some w => by_cases hw : w = old <;> simp [instead, hw, Ne.symm hv, Ne.symm hvn]

end Repoint

end Arena

end TensorGraph
