import TensorGraph.Proofs.Inference.Soundness

/-! # Interfaces of bodies

What is said of a body is what its graph says of itself: the bodies inside it enter by what they
are described as, so that the graph may be inferred as it is. A graph in which the recorded specs
are those of inference is left as it is when it is inferred anew, and so it gives its own results.
-/

namespace TensorGraph

variable {β γ : Type}

namespace Arena

/-! ### Bodies replaced by what they are described as -/

section Map

variable {a : Arena β} {f : β → γ} {v : Value} {id : NodeId}

theorem output?_map (f : β → γ) (v : Value) : (a.map f).output? v = a.output? v := by
  simp only [output?, node?_map]
  cases a.node? v.node <;> rfl

theorem spec?_map (f : β → γ) : (a.map f).spec? = a.spec? := by
  funext v
  rw [spec?, output?_map, spec?]

theorem specs_map (f : β → γ) (values : List Value) : (a.map f).specs values = a.specs values := by
  unfold specs
  rw [spec?_map]

theorem modifyNode_map {k : Node β → Node β} {k' : Node γ → Node γ}
    (h : ∀ n, k' (n.map f) = (k n).map f) (i : Nat) :
    (a.map f).modifyNode i k' = (a.modifyNode i k).map f := by
  simp only [modifyNode, map, Arena.mk.injEq, and_true]
  refine Array.ext_getElem? fun j => ?_
  simp only [Array.getElem?_modify, Array.getElem?_map]
  split
  · cases a.slots[j]? with
    | none => rfl
    | some s => cases hn : s.node <;> simp [Slot.map, hn, h]
  · rfl

theorem topologicalOrder_map (f : β → γ) : (a.map f).topologicalOrder = a.topologicalOrder := by
  refine topologicalOrder_congr ?_ rfl
  simp only [wiring, map, Array.toList_map, List.map_map]
  refine List.map_congr_left fun s _ => ?_
  cases hn : s.node <;> simp [Slot.map, Node.map, hn]

theorem resultSpecs_map (f : β → γ) : (a.map f).resultSpecs = a.resultSpecs := by
  unfold resultSpecs
  rw [spec?_map]
  refine List.filterMap_congr fun id _ => ?_
  rw [node?_map]
  cases a.node? id <;> rfl

theorem bindFrom_map (f : β → γ) (position : Nat) (params : List (NodeId × Spec)) :
    (a.map f).bindFrom position params = (a.bindFrom position params).map (map f) := by
  induction params generalizing a position with
  | nil => rfl
  | cons param params ih =>
    obtain ⟨id, spec⟩ := param
    have hset : (a.map f).setParameter id spec = (a.setParameter id spec).map f := by
      refine modifyNode_map ?_ id.index
      exact fun n => rfl
    rw [bindFrom, bindFrom, node?_map]
    cases a.node? id with
    | none => rfl
    | some n =>
      rw [Option.map_some]
      dsimp only
      rw [Node.map]
      cases n.outputs.head? with
      | none => rfl
      | some o =>
        dsimp only
        rw [hset, ih]
        split <;> rfl

variable [Described β] [Described γ]
variable (hf : ∀ b, Described.describe (f b) = Described.describe b)
include hf

theorem infer_map (op : Operation β) (inputs : List Spec) :
    (a.map f).infer (op.map f) inputs = a.infer op inputs := by
  have hdescribe : Described.describe ∘ f = (Described.describe : β → Interface) := funext hf
  rw [infer, Operation.map_map, hdescribe]
  rfl

theorem inferNode_map (id : NodeId) : (a.map f).inferNode id = a.inferNode id := by
  unfold inferNode node
  rw [node?_map]
  cases a.node? id with
  | none => rfl
  | some n =>
    have hop : (n.map f).op = n.op.map f := rfl
    have hkind : (n.map f).kind = n.kind := Operation.kind_map f n.op
    have hinputs : (n.map f).inputs = n.inputs := rfl
    have houtputs : (n.map f).outputs = n.outputs := rfl
    simp only [Option.map_some, bind, Except.bind, hop, hkind, hinputs, houtputs, specs_map,
      infer_map hf]

theorem inferAll_map (ids : List NodeId) :
    (a.map f).inferAll ids = ((a.inferAll ids).1.map f, (a.inferAll ids).2) := by
  induction ids generalizing a with
  | nil => rfl
  | cons id ids ih =>
    rw [inferAll, inferAll, inferNode_map hf]
    cases a.inferNode id with
    | error e => rfl
    | ok specs =>
      have hset : (a.map f).setSpecs id specs = (a.setSpecs id specs).map f := by
        refine modifyNode_map ?_ id.index
        exact fun n => rfl
      dsimp only
      rw [hset, ih]

theorem revalidate_map : (a.map f).revalidate = (a.revalidate.1.map f, a.revalidate.2) := by
  unfold revalidate
  rw [topologicalOrder_map]
  cases a.topologicalOrder with
  | error e => rfl
  | ok order =>
    dsimp only
    rw [inferAll_map hf]
    generalize a.inferAll order = r
    obtain ⟨b, result⟩ := r
    cases result <;> rfl

theorem resultsOn_map (specs : List Spec) : (a.map f).resultsOn specs = a.resultsOn specs := by
  have hbind : (a.map f).bindParameters specs = (a.bindParameters specs).map (map f) := by
    have hlen : (a.map f).parameters = a.parameters := rfl
    unfold bindParameters
    rw [hlen, bindFrom_map]
    split
    · cases a.bindFrom 0 (a.parameters.zip specs) <;> rfl
    · rfl
  unfold resultsOn
  rw [hbind]
  cases a.bindParameters specs with
  | error e => rfl
  | ok b =>
    simp only [Except.map, revalidate_map hf]
    generalize b.revalidate = r
    obtain ⟨c, result⟩ := r
    cases result with
    | error e => rfl
    | ok _ => exact congrArg Except.ok (resultSpecs_map f)

end Map

end Arena

theorem Body.interface_mk (g : Graph) : (mk g).interface = g.interface := by
  rw [interface, fold_mk, Arena.interface, Arena.interface]
  congr 1
  exact funext (Arena.resultsOn_map fun _ => rfl)

/-! ### Graphs that are inferred anew -/

namespace Arena

variable {a : Arena β} {g : Graph} {id : NodeId} {n : Node β} {specs : List Spec}

theorem modifyNode_eq_self {f : Node β → Node β} (hn : a.node? id = some n) (hf : f n = n) :
    a.modifyNode id.index f = a := by
  obtain ⟨s, hs, -, hsn⟩ := node?_eq_some_iff.mp hn
  have hslots : (a.modifyNode id.index f).slots = a.slots := by
    refine Array.ext_getElem? fun j => ?_
    rw [modifyNode, Array.getElem?_modify]
    split
    · rename_i hj
      subst hj
      rw [hs, Option.map_some, hsn, Option.map_some, hf, ← hsn]
    · rfl
  cases a
  simpa [modifyNode] using hslots

theorem setSpecs_eq_self (hn : a.node? id = some n) : a.setSpecs id n.specs = a := by
  refine modifyNode_eq_self hn ?_
  have houtputs : n.outputs.zipWith (fun o spec => { o with spec }) n.specs = n.outputs := by
    rw [Node.specs, List.zipWith_map_right, List.zipWith_self]
    exact List.map_id' _
  rw [houtputs]

theorem setParameter_eq_self {o : Output} {rest : List Output} (hn : a.node? id = some n)
    (hop : n.op = Primitive.parameter o.spec) (houtputs : n.outputs = o :: rest) :
    a.setParameter id o.spec = a := by
  refine modifyNode_eq_self hn ?_
  rw [houtputs, List.modify_zero_cons, ← houtputs, ← hop]

theorem Inferred.inferAll (h : g.Inferred) {ids : List NodeId}
    (hids : ∀ id ∈ ids, g.contains id = true) : g.inferAll ids = (g, .ok ()) := by
  induction ids with
  | nil => rfl
  | cons id ids ih =>
    obtain ⟨hid, hids⟩ := List.forall_mem_cons.mp hids
    obtain ⟨n, hn⟩ := contains_iff.mp hid
    rw [Arena.inferAll, h id n hn]
    dsimp only
    rw [setSpecs_eq_self hn, ih hids]

theorem Inferred.revalidate (h : g.Inferred) (hg : g.WellFormed) :
    g.revalidate = (g.bump, .ok ()) := by
  obtain ⟨order, horder, -, hperm⟩ := hg.topologicalOrder_eq
  have hlive : ∀ id ∈ order, g.contains id = true := fun id hid =>
    mem_nodeIds_iff_contains.mp (hperm.mem_iff.mp hid)
  simp only [Arena.revalidate, horder, h.inferAll hlive]

/-- A parameter has one output, of the spec that its operation holds. -/
theorem Inferred.exists_parameter (h : g.Inferred) (ht : g.table = .standard)
    (hid : g.kind? id = some .parameter) :
    ∃ n o, g.node? id = some n ∧ n.op = Primitive.parameter o.spec ∧ n.outputs = [o] := by
  obtain ⟨n, hn, hkind⟩ := kind?_eq_some_iff.mp hid
  obtain ⟨given, -, e⟩ := h.exists_given ht hn
  have hrule := (Operation.infer_standard_eq_ok e).2
  rw [Operation.kind_map, show n.op.kind = .parameter from hkind] at hrule
  cases hop : n.op with
  | subgraph body =>
    rw [hop] at hrule
    cases hrule
  | primitive p =>
    rw [hop] at hrule
    cases p with
    | parameter spec =>
      obtain ⟨o, ho, rfl⟩ := List.map_eq_singleton_iff.mp (Except.ok.inj hrule).symm
      exact ⟨n, o, hn, hop, ho⟩
    | _ => cases hrule

theorem Inferred.bindFrom (h : g.Inferred) (ht : g.table = .standard) (position : Nat)
    {params : List (NodeId × Spec)} (hparams : ∀ x ∈ params,
      g.kind? x.1 = some .parameter ∧ g.spec? (x.1.output 0) = some x.2) :
    g.bindFrom position params = .ok g := by
  induction params generalizing position with
  | nil => rfl
  | cons x params ih =>
    obtain ⟨⟨hkind, hspec⟩, hrest⟩ := List.forall_mem_cons.mp hparams
    obtain ⟨id, spec⟩ := x
    obtain ⟨n, o, hn, hop, houtputs⟩ := h.exists_parameter ht hkind
    obtain rfl : o.spec = spec := by
      simpa [spec?, output?, NodeId.output, hn, houtputs] using hspec
    rw [Arena.bindFrom, hn]
    dsimp only
    rw [houtputs, List.head?_cons]
    dsimp only
    rw [if_pos rfl, setParameter_eq_self hn hop houtputs, ih _ hrest]

/-- On the specs that its parameters have, a graph gives those that its results receive. -/
theorem Inferred.resultsOn (h : g.Inferred) (hg : g.WellFormed) (ht : g.table = .standard)
    (hspecs : g.parameters.map (fun id => g.spec? (id.output 0)) = specs.map some) :
    g.resultsOn specs = .ok g.resultSpecs := by
  have hlen : specs.length = g.parameters.length := by
    simpa using (congrArg List.length hspecs).symm
  have hbind : g.bindFrom 0 (g.parameters.zip specs) = .ok g := by
    refine h.bindFrom ht 0 fun x hx => ?_
    obtain ⟨i, hi⟩ := List.mem_iff_getElem?.mp hx
    obtain ⟨hid, hspec⟩ := List.getElem?_zip_eq_some.mp hi
    have hat := congrArg (·[i]?) hspecs
    simp only [List.getElem?_map, hid, hspec, Option.map_some, Option.some.injEq] at hat
    exact ⟨hg.parameters _ (List.mem_of_getElem? hid), hat⟩
  have hbump : g.bump.Inferred := h
  have hrevalidate := hbump.revalidate hg.bump
  unfold Arena.resultsOn bindParameters
  rw [if_pos hlen, hbind]
  simp only [Except.map, hrevalidate]
  rfl

end Arena

/-- The standard table leaves a subgraph to its body. -/
theorem CapabilityTable.infer_subgraph (i : Interface) (specs : List Spec) {outputs : List Spec}
    (h : i.infer specs = .ok outputs) : standard.infer (.subgraph i) specs = .ok outputs := by
  simp [infer, standard, Capability.standard, Operation.kind, Arity.accepts, Rule.subgraph, h]

end TensorGraph
