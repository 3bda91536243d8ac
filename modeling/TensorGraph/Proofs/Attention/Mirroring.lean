import TensorGraph.Proofs.Attention.Boundary
import TensorGraph.Proofs.Inference.Bodies
import TensorGraph.Proofs.Inference.Preservation
import TensorGraph.Proofs.Meaning.Copying

/-! # Bodies that mirror islands

The body for an island is built without fail: whatever a copied node reads is known by then, as a
parameter or as an output of a node copied before it. Every value of the body has the spec of the
one that it stands for, so the copies are inferred as their originals are, and on the specs of
what enters the island the body gives those of what leaves it.
-/

namespace TensorGraph

namespace Arena

variable {β : Type} {a b : Arena β} {id : NodeId} {op : Operation β} {inputs : List Value}
variable {u : Use} {v : Value}

theorem Grown.spec?_eq (h : a.Grown b id op inputs) (hv : a.contains v.node = true) :
    b.spec? v = a.spec? v := by
  rw [spec?_eq_bare, spec?_eq_bare, h.part hv]

theorem Grown.producer?_eq (h : a.Grown b id op inputs) (hu : a.contains u.node = true) :
    b.producer? u = a.producer? u := by
  rw [producer?_eq_bare, producer?_eq_bare, h.part hu]

end Arena

namespace Attention

variable {g b : Graph} {c : Copying} {ins outs : List Value} {v w : Value} {id : NodeId}
variable {n : Node Body} {op : Operation Body} {inputs : List Value} {i : Island}

def Copying.Knows (c : Copying) (v : Value) : Prop := ∃ w, (v, w) ∈ c.known

/-- A body under construction in which everything has the spec of what it stands for. -/
structure Mirrors (g : Graph) (c : Copying) (ins outs : List Value) : Prop where
  wellFormed : c.body.WellFormed
  standard : c.body.table = .standard
  inferred : c.body.Inferred
  parameters : c.body.parameters.map (fun id => c.body.spec? (id.output 0)) = ins.map g.spec?
  results : c.body.results.map (fun id => (c.body.producer? (id.input 0)).bind c.body.spec?) =
    outs.map g.spec?
  known : ∀ x ∈ c.known, c.body.hasOutput x.2 = true ∧ c.body.spec? x.2 = g.spec? x.1

namespace Mirrors

theorem start (g : Graph) : Mirrors g (.start .standard) [] [] where
  wellFormed := Arena.wellFormed_empty _
  standard := rfl
  inferred _ _ hn := by cases hn
  parameters := rfl
  results := rfl
  known _ hx := absurd hx List.not_mem_nil

/-! ### One more node -/

section Grown

variable (h : Mirrors g c ins outs) (hg : c.body.Grown b id op inputs)
include h hg

theorem parameters_of_grown :
    c.body.parameters.map (fun id => b.spec? (id.output 0)) = ins.map g.spec? := by
  rw [← h.parameters]
  apply List.map_congr_left
  intro id hid
  exact hg.spec?_eq (Arena.contains_of_kind? (h.wellFormed.parameters id hid))

theorem results_of_grown :
    c.body.results.map (fun id => (b.producer? (id.input 0)).bind b.spec?) =
      outs.map g.spec? := by
  rw [← h.results]
  apply List.map_congr_left
  intro id hid
  rw [hg.producer?_eq (u := id.input 0) (Arena.contains_of_kind? (h.wellFormed.results id hid))]
  cases hv : c.body.producer? (id.input 0) with
  | none => rfl
  | some v => exact hg.spec?_eq (Arena.contains_of_hasOutput (h.wellFormed.linked.hasOutput hv))

theorem known_of_grown {x : Value × Value} (hx : x ∈ c.known) :
    b.hasOutput x.2 = true ∧ b.spec? x.2 = g.spec? x.1 := by
  obtain ⟨hout, hspec⟩ := h.known x hx
  have hkeep := hg.spec?_eq (Arena.contains_of_hasOutput hout)
  constructor
  · rw [Arena.hasOutput_eq_spec?, hkeep, ← Arena.hasOutput_eq_spec?, hout]
  · rw [hkeep, hspec]

theorem inferred_of_grown (ht : b.table = c.body.table) {given : List Spec}
    (hn : b.bare? id = some n) (hin : n.inputs.map c.body.spec? = given.map some)
    (hout : CapabilityTable.standard.infer (n.op.map Described.describe) given = .ok n.specs) :
    b.Inferred := by
  refine h.inferred.of_grown h.wellFormed.linked ht hg.old hg.fresh fun m hm => ?_
  obtain rfl := Option.some.inj (hn.symm.trans hm)
  refine ⟨given, ?_, ?_⟩
  · rw [← hin]
    refine List.map_congr_left fun v hv => hg.spec?_eq ?_
    have hmem : c.body.spec? v ∈ given.map some := hin ▸ List.mem_map_of_mem hv
    obtain ⟨spec, -, hspec⟩ := List.mem_map.mp hmem
    exact Arena.contains_of_spec? hspec.symm
  · rw [Arena.infer, h.standard]
    exact hout

end Grown

/-! ### Parameters -/

theorem addParameter (h : Mirrors g c ins outs) (hv : g.hasOutput v = true) (position : Nat) :
    ∃ c', c.addParameter g v position = .ok c' ∧ Mirrors g c' (ins ++ [v]) outs ∧ c'.Knows v ∧
      ∀ w, c.Knows w → c'.Knows w := by
  obtain ⟨producer, hproducer, -⟩ := Arena.hasOutput_iff.mp hv
  obtain ⟨spec, hspec⟩ : ∃ spec, g.spec? v = some spec :=
    Option.isSome_iff_exists.mp (Arena.hasOutput_eq_spec?.symm.trans hv)
  have e : c.addParameter g v position = .ok
      ⟨(c.body.addParameter (c.parameterName position producer.name) spec).1,
        (v, (c.body.addParameter (c.parameterName position producer.name) spec).2.output 0) ::
          c.known, c.parameterName position producer.name :: c.names⟩ := by
    unfold Copying.addParameter
    rw [hspec]
    exact bind_eq_ok_iff.mpr ⟨producer, Arena.node_eq_ok_iff.mpr hproducer, rfl⟩
  generalize c.parameterName position producer.name = name at e
  have hgrown := h.wellFormed.grown_addParameter name spec
  have hbare := h.wellFormed.bare?_addParameter name spec
  have htable := h.wellFormed.table_addParameter name spec
  obtain ⟨hp, hr⟩ := Arena.addParameter_lists h.wellFormed name spec
  generalize c.body.addParameter name spec = added at e hgrown hbare htable hp hr
  have hnew : added.1.spec? (added.2.output 0) = some spec := by
    rw [Arena.spec?_eq_bare]
    exact congrArg (Option.bind · _) hbare
  refine ⟨_, e, ⟨hgrown.wellFormed, htable.trans h.standard, ?_, ?_, ?_, fun x hx => ?_⟩,
    ⟨_, List.mem_cons_self⟩, fun w ⟨w', hw⟩ => ⟨w', List.mem_cons_of_mem _ hw⟩⟩
  · have hnothing : ([] : List Value).map c.body.spec? = ([] : List Spec).map some := rfl
    exact h.inferred_of_grown hgrown htable hbare hnothing rfl
  · rw [hp, List.map_append, h.parameters_of_grown hgrown, List.map_append, List.map_singleton,
      List.map_singleton, hnew, hspec]
  · rw [hr, h.results_of_grown hgrown]
  · rcases List.mem_cons.mp hx with rfl | hx
    · exact ⟨Arena.hasOutput_of_spec? hnew, hnew.trans hspec.symm⟩
    · exact h.known_of_grown hgrown hx

theorem addParameters (h : Mirrors g c ins outs) {vs : List Value}
    (hvs : ∀ v ∈ vs, g.hasOutput v = true) (start : Nat) :
    ∃ c', (vs.zipIdx start).foldlM (fun c (v, position) => c.addParameter g v position) c =
        .ok c' ∧ Mirrors g c' (ins ++ vs) outs ∧ (∀ v ∈ vs, c'.Knows v) ∧
        ∀ w, c.Knows w → c'.Knows w := by
  induction vs generalizing c ins start with
  | nil =>
    refine ⟨c, rfl, ?_, fun v hv => absurd hv List.not_mem_nil, fun w hw => hw⟩
    rwa [List.append_nil]
  | cons v vs ih =>
    obtain ⟨hv, hvs⟩ := List.forall_mem_cons.mp hvs
    obtain ⟨d, hd, hmirrors, hknows, hkeep⟩ := h.addParameter hv start
    obtain ⟨c', hc', hrest, hall, hlater⟩ := ih hmirrors hvs (start + 1)
    refine ⟨c', ?_, ?_, ?_, fun w hw => hlater w (hkeep w hw)⟩
    · rw [List.zipIdx_cons, List.foldlM_cons]
      exact bind_eq_ok_iff.mpr ⟨d, hd, hc'⟩
    · rwa [List.append_assoc] at hrest
    · exact List.forall_mem_cons.mpr ⟨hlater v hknows, hall⟩

/-! ### Copies -/

theorem exists_value (h : Mirrors g c ins outs) (hv : c.Knows v) :
    ∃ w, c.value v = .ok w ∧ c.body.hasOutput w = true ∧ c.body.spec? w = g.spec? v := by
  obtain ⟨w, hw⟩ : ∃ w, c.value v = .ok w := by
    obtain ⟨w, hw⟩ := hv
    have hfound : (c.known.find? fun x => x.1 == v).isSome = true :=
      List.find?_isSome.mpr ⟨(v, w), hw, beq_self_eq_true v⟩
    obtain ⟨x, hx⟩ := Option.isSome_iff_exists.mp hfound
    exact ⟨x.2, by rw [Copying.value, hx]⟩
  exact ⟨w, hw, h.known _ (Copies.mem_of_value hw)⟩

theorem exists_values (h : Mirrors g c ins outs) {vs : List Value} (hvs : ∀ v ∈ vs, c.Knows v) :
    ∃ ws, vs.mapM c.value = .ok ws ∧ (∀ w ∈ ws, c.body.hasOutput w = true) ∧
      ws.map c.body.spec? = vs.map g.spec? := by
  induction vs with
  | nil => exact ⟨[], rfl, fun w hw => absurd hw List.not_mem_nil, rfl⟩
  | cons v vs ih =>
    obtain ⟨hv, hvs⟩ := List.forall_mem_cons.mp hvs
    obtain ⟨w, hw, hout, hspec⟩ := h.exists_value hv
    obtain ⟨ws, hws, houts, hspecs⟩ := ih hvs
    refine ⟨w :: ws, ?_, List.forall_mem_cons.mpr ⟨hout, houts⟩, ?_⟩
    · rw [List.mapM_cons]
      exact bind_eq_ok_iff.mpr ⟨w, hw, bind_eq_ok_iff.mpr ⟨ws, hws, rfl⟩⟩
    · rw [List.map_cons, List.map_cons, hspec, hspecs]

/-- A node of the body may be given another name and other annotations. -/
theorem remark (h : Mirrors g c ins outs) (index : Nat) (name : String)
    (annotations : Annotations) : Mirrors g
      { c with body := c.body.modifyNode index fun m => { m with name, annotations } }
      ins outs := by
  have hbare (x : NodeId) :
      (c.body.modifyNode index fun m => { m with name, annotations }).bare? x =
        (c.body.bare? x).map fun m =>
          if x.index = index then { m with name, annotations } else m := by
    rw [Arena.bare?_modifyNode]
    split
    · rw [Arena.bare?, Option.map_map]
      rfl
    · exact Option.map_id'.symm
  have hspec : (c.body.modifyNode index fun m => { m with name, annotations }).spec? =
      c.body.spec? := by
    funext v
    rw [Arena.spec?_eq_bare, Arena.spec?_eq_bare, hbare, Option.bind_map]
    congr 1
    funext m
    dsimp only [Function.comp_apply]
    split <;> rfl
  have hproducer : (c.body.modifyNode index fun m => { m with name, annotations }).producer? =
      c.body.producer? := by
    funext u
    rw [Arena.producer?_eq_bare, Arena.producer?_eq_bare, hbare, Option.bind_map]
    congr 1
    funext m
    dsimp only [Function.comp_apply]
    split <;> rfl
  refine ⟨h.wellFormed.modifyNode fun x m _ _ => ⟨rfl, rfl, rfl⟩, h.standard, ?_, ?_, ?_, ?_⟩
  · rw [Arena.inferred_iff]
    intro x m hm
    rw [hbare] at hm
    obtain ⟨m', hm', rfl⟩ := Option.map_eq_some_iff.mp hm
    obtain ⟨given, hin, hout⟩ := Arena.inferred_iff.mp h.inferred x m' hm'
    rw [hspec]
    refine ⟨given, ?_⟩
    split <;> exact ⟨hin, hout⟩
  · simp only [hspec, Arena.parameters_modifyNode, h.parameters]
  · simp only [hspec, hproducer, Arena.results_modifyNode, h.results]
  · intro x hx
    rw [Arena.hasOutput_eq_spec?, hspec, ← Arena.hasOutput_eq_spec?]
    exact h.known x hx

theorem addCopy (h : Mirrors g c ins outs) (ht : g.table = .standard) (hi : g.Inferred)
    (hn : g.node? id = some n) (hkind : n.isAnchor = false) (hin : ∀ v ∈ n.inputs, c.Knows v) :
    ∃ c', c.addCopy g id = .ok c' ∧ Mirrors g c' ins outs ∧
      (∀ port < n.outputs.length, c'.Knows (id.output port)) ∧ ∀ w, c.Knows w → c'.Knows w := by
  obtain ⟨ws, hws, houts, hspecs⟩ := h.exists_values hin
  obtain ⟨b, copy, hb⟩ : ∃ b copy, c.body.addVerbatim n.op ws n.specs = .ok (b, copy) :=
    ⟨_, _, Arena.addVerbatim_eq_ok_iff.mpr ⟨houts, _, rfl, rfl⟩⟩
  have e : c.addCopy g id = .ok { c with
      body := b.modifyNode copy.index fun m =>
        { m with name := n.name, annotations := n.annotations }
      known := (List.range n.outputs.length).map
        (fun port => (id.output port, copy.output port)) ++ c.known } := by
    refine bind_eq_ok_iff.mpr ⟨n, Arena.node_eq_ok_iff.mpr hn, bind_eq_ok_iff.mpr ⟨ws, hws, ?_⟩⟩
    exact bind_eq_ok_iff.mpr ⟨(b, copy), hb, rfl⟩
  have hgrown := h.wellFormed.grown_addVerbatim hb
  have hbare := h.wellFormed.bare?_addVerbatim hb
  have htable := h.wellFormed.table_addVerbatim hb
  obtain ⟨hp, hr⟩ := Arena.addVerbatim_lists h.wellFormed hb
  have hkind : n.op.kind.isAnchor = false := hkind
  rw [Arena.enlist_of_not_isAnchor hkind] at hp hr
  have hnew (port : Nat) : b.spec? (copy.output port) = g.spec? (id.output port) := by
    rw [Arena.spec?_eq_bare, show b.bare? (copy.output port).node = _ from hbare]
    simp [Node.fresh, Node.specs, NodeId.output, Arena.spec?, Arena.output?, hn,
      Function.comp_def]
  have hmirrors : Mirrors g ⟨b, (List.range n.outputs.length).map
      (fun port => (id.output port, copy.output port)) ++ c.known, c.names⟩ ins outs := by
    refine ⟨hgrown.wellFormed, htable.trans h.standard, ?_, ?_, ?_, fun x hx => ?_⟩
    · obtain ⟨given, hgiven, hout⟩ := hi.exists_given ht hn
      refine h.inferred_of_grown hgrown htable hbare (hspecs.trans hgiven) ?_
      have hfresh : (Node.fresh n.op n.specs "" .empty).specs = n.specs := by
        simp [Node.fresh, Node.specs]
      exact hout.trans (congrArg Except.ok hfresh.symm)
    · rw [hp, h.parameters_of_grown hgrown]
    · rw [hr, h.results_of_grown hgrown]
    · rcases List.mem_append.mp hx with hx | hx
      · obtain ⟨port, hport, rfl⟩ := List.mem_map.mp hx
        have hout : g.hasOutput (id.output port) = true :=
          Arena.hasOutput_iff.mpr ⟨n, hn, List.mem_range.mp hport⟩
        refine ⟨?_, hnew port⟩
        rw [Arena.hasOutput_eq_spec?, hnew port, ← Arena.hasOutput_eq_spec?, hout]
      · exact h.known_of_grown hgrown hx
  refine ⟨_, e, hmirrors.remark copy.index n.name n.annotations, ?_, ?_⟩
  · intro port hport
    exact ⟨copy.output port, List.mem_append_left _
      (List.mem_map_of_mem (List.mem_range.mpr hport))⟩
  · rintro w ⟨w', hw⟩
    exact ⟨w', List.mem_append_right _ hw⟩

theorem addCopies (h : Mirrors g c ins outs) (hg : g.WellFormed) (ht : g.table = .standard)
    (hi : g.Inferred) {ids : List NodeId}
    (hids : ∀ id ∈ ids, ∃ n, g.node? id = some n ∧ n.isAnchor = false ∧
      ∀ v ∈ n.inputs, c.Knows v ∨ v.node ∈ ids)
    (hsorted : ids.Pairwise fun x y => ¬ g.Reads x y) :
    ∃ c', ids.foldlM (Copying.addCopy g) c = .ok c' ∧ Mirrors g c' ins outs ∧
      (∀ v, g.hasOutput v = true → v.node ∈ ids → c'.Knows v) ∧ ∀ w, c.Knows w → c'.Knows w := by
  induction ids generalizing c with
  | nil => exact ⟨c, rfl, h, fun v _ hv => absurd hv List.not_mem_nil, fun w hw => hw⟩
  | cons id ids ih =>
    obtain ⟨⟨n, hn, hkind, hin⟩, hids⟩ := List.forall_mem_cons.mp hids
    obtain ⟨hfirst, hsorted⟩ := List.pairwise_cons.mp hsorted
    have hknown (v : Value) (hv : v ∈ n.inputs) : c.Knows v := by
      rcases hin v hv with hv' | hv'
      · exact hv'
      · have hread := Arena.reads_of_input hn hv
        rcases List.mem_cons.mp hv' with he | hmem
        · exact absurd (.single (he ▸ hread)) (hg.acyclic id)
        · exact absurd hread (hfirst v.node hmem)
    obtain ⟨d, hd, hmirrors, hcopied, hkeep⟩ := h.addCopy ht hi hn hkind hknown
    have houtput (v : Value) (hv : g.hasOutput v = true) (he : v.node = id) : d.Knows v := by
      obtain ⟨m, hm, hlt⟩ := Arena.hasOutput_iff.mp hv
      subst he
      obtain rfl := Option.some.inj (hn.symm.trans hm)
      exact hcopied v.port hlt
    have hids' (x : NodeId) (hx : x ∈ ids) : ∃ m, g.node? x = some m ∧ m.isAnchor = false ∧
        ∀ v ∈ m.inputs, d.Knows v ∨ v.node ∈ ids := by
      obtain ⟨m, hm, hkind, hin⟩ := hids x hx
      refine ⟨m, hm, hkind, fun v hv => ?_⟩
      rcases hin v hv with hv' | hv'
      · exact .inl (hkeep v hv')
      · rcases List.mem_cons.mp hv' with he | hmem
        · exact .inl (houtput v (hg.linked.hasOutput_of_input hm hv) he)
        · exact .inr hmem
    obtain ⟨c', hc', hrest, hall, hlater⟩ := ih hmirrors hids' hsorted
    refine ⟨c', ?_, hrest, fun v hv hmem => ?_, fun w hw => hlater w (hkeep w hw)⟩
    · rw [List.foldlM_cons]
      exact bind_eq_ok_iff.mpr ⟨d, hd, hc'⟩
    · rcases List.mem_cons.mp hmem with he | hmem
      · exact hlater v (houtput v hv he)
      · exact hall v hv hmem

/-! ### Results -/

theorem addResult (h : Mirrors g c ins outs) (hv : c.Knows v) :
    ∃ c', c.addResult v = .ok c' ∧ Mirrors g c' ins (outs ++ [v]) ∧ c'.known = c.known := by
  obtain ⟨w, hw, hout, hspec⟩ := h.exists_value hv
  obtain ⟨spec, hwspec⟩ : ∃ spec, c.body.spec? w = some spec :=
    Option.isSome_iff_exists.mp (Arena.hasOutput_eq_spec?.symm.trans hout)
  have hsupplied : [w].map c.body.spec? = [spec].map some := by
    rw [List.map_singleton, hwspec]
    rfl
  have hnothing : CapabilityTable.standard.infer
      (Operation.map Described.describe (Primitive.result : Operation Body)) [spec] = .ok [] := rfl
  obtain ⟨b, r, hb⟩ : ∃ b r, c.body.addVerbatim Primitive.result [w] [] = .ok (b, r) :=
    ⟨_, _, Arena.addVerbatim_eq_ok_iff.mpr
      ⟨List.forall_mem_singleton.mpr hout, _, rfl, rfl⟩⟩
  have e : c.addResult v = .ok { c with body := b } := by
    refine bind_eq_ok_iff.mpr ⟨w, hw, bind_eq_ok_iff.mpr ⟨(b, r), ?_, rfl⟩⟩
    refine bind_eq_ok_iff.mpr ⟨[spec], Arena.specs_eq_ok_iff.mpr hsupplied, ?_⟩
    refine bind_eq_ok_iff.mpr ⟨[], ?_, hb⟩
    rw [Arena.infer, h.standard]
    exact hnothing
  have hgrown := h.wellFormed.grown_addVerbatim hb
  have hbare := h.wellFormed.bare?_addVerbatim hb
  have htable := h.wellFormed.table_addVerbatim hb
  obtain ⟨hp, hr⟩ := Arena.addVerbatim_lists h.wellFormed hb
  have hreceived : (b.producer? (r.input 0)).bind b.spec? = g.spec? v := by
    rw [Arena.producer?_eq_bare, show b.bare? (r.input 0).node = _ from hbare]
    exact (hgrown.spec?_eq (Arena.contains_of_hasOutput hout)).trans hspec
  refine ⟨_, e, ⟨hgrown.wellFormed, htable.trans h.standard, ?_, ?_, ?_, fun x hx => ?_⟩, rfl⟩
  · exact h.inferred_of_grown hgrown htable hbare hsupplied hnothing
  · exact (congrArg _ hp).trans (h.parameters_of_grown hgrown)
  · refine (congrArg _ hr).trans ?_
    refine (List.map_append ..).trans ?_
    rw [h.results_of_grown hgrown, List.map_append, List.map_singleton, List.map_singleton,
      hreceived]
  · exact h.known_of_grown hgrown hx

theorem addResults (h : Mirrors g c ins outs) {vs : List Value} (hvs : ∀ v ∈ vs, c.Knows v) :
    ∃ c', vs.foldlM Copying.addResult c = .ok c' ∧ Mirrors g c' ins (outs ++ vs) := by
  induction vs generalizing c outs with
  | nil =>
    refine ⟨c, rfl, ?_⟩
    rwa [List.append_nil]
  | cons v vs ih =>
    obtain ⟨hv, hvs⟩ := List.forall_mem_cons.mp hvs
    obtain ⟨d, hd, hmirrors, hknown⟩ := h.addResult hv
    have hrest : ∀ w ∈ vs, d.Knows w := by
      unfold Copying.Knows
      rw [hknown]
      exact hvs
    obtain ⟨c', hc', hmirrors⟩ := ih hmirrors hrest
    refine ⟨c', ?_, ?_⟩
    · rw [List.foldlM_cons]
      exact bind_eq_ok_iff.mpr ⟨d, hd, hc'⟩
    · rwa [List.append_assoc] at hmirrors

/-! ### The whole body -/

/-- On the specs of what it stands for, a body gives the specs of what leaves it. -/
theorem infer_eq (h : Mirrors g c ins outs) (ht : g.table = .standard)
    {given specs : List Spec} (hin : ins.map g.spec? = given.map some)
    (hout : outs.map g.spec? = specs.map some) :
    g.infer (.subgraph (.mk c.body)) given = .ok specs := by
  have hresults : c.body.resultSpecs = specs := by
    have hmap := h.results.trans hout
    rw [Arena.resultSpecs_eq]
    have hfilter := congrArg (List.filterMap id) hmap
    rw [List.filterMap_map, List.filterMap_map] at hfilter
    refine hfilter.trans ?_
    exact List.filterMap_some
  have hon : c.body.resultsOn given = .ok specs :=
    (h.inferred.resultsOn h.wellFormed h.standard (h.parameters.trans hin)).trans
      (congrArg Except.ok hresults)
  rw [Arena.infer, ht]
  refine CapabilityTable.infer_subgraph _ given ?_
  change (Body.interface (.mk c.body)).infer given = .ok specs
  rw [Body.interface_mk]
  exact hon

end Mirrors

namespace Island

variable {boundary : Boundary}

theorem isAnchor_of_fits (h : i.Fits g) (hid : id ∈ i.constants ++ i.nodes)
    (hn : g.node? id = some n) : n.isAnchor = false := by
  have hkind : ∃ k, g.kind? id = some k ∧ k.isAnchor = false := by
    rcases List.mem_append.mp hid with hid | hid
    · exact ⟨_, (h.constants id hid).1, rfl⟩
    · obtain ⟨k, hk, hmember⟩ := h.members id hid
      exact ⟨k, hk, hmember.movable⟩
  obtain ⟨k, hk, hanchor⟩ := hkind
  obtain rfl : n.kind = k := Option.some.inj ((congrArg (Option.map Node.kind) hn).symm.trans hk)
  exact hanchor

theorem inputs_of_constant (ht : g.table = .standard) (hi : g.Inferred)
    (hid : g.kind? id = some .constant) (hn : g.node? id = some n) : n.inputs = [] := by
  obtain ⟨given, hin, e⟩ := hi.exists_given ht hn
  have harity := (Operation.infer_standard_eq_ok e).1
  have hkind : n.op.kind = .constant := Option.some.inj
    ((congrArg (Option.map Node.kind) hn).symm.trans hid)
  rw [Operation.kind_map, hkind] at harity
  have hlen := congrArg List.length hin
  rw [List.length_map, List.length_map] at hlen
  have hzero : given.length = 0 := Operation.accepts_exactly harity
  exact List.length_eq_zero_iff.mp (hlen.trans hzero)

theorem Fits.not_reads_of_constant (h : i.Fits g) (ht : g.table = .standard) (hi : g.Inferred)
    (hid : id ∈ i.constants) (y : NodeId) : ¬ g.Reads id y := by
  intro hr
  obtain ⟨n, hn⟩ := Arena.contains_iff.mp (Arena.contains_of_reads_left hr)
  rw [Arena.Reads, Arena.producers_of_node? hn,
    inputs_of_constant ht hi (h.constants id hid).1 hn] at hr
  exact absurd hr List.not_mem_nil

theorem exists_body (hg : g.WellFormed) (ht : g.table = .standard) (hi : g.Inferred)
    (h : i.Fits g) (e : i.boundary g = .ok boundary) :
    ∃ c, i.body g boundary = .ok c.body ∧ Mirrors g c boundary.inputs boundary.outputs := by
  have hentering (v : Value) (hv : v ∈ boundary.inputs) : g.hasOutput v = true :=
    hasOutput_of_mem_inputs hg.linked e hv
  obtain ⟨c₁, h₁, hmirrors, hknown, -⟩ := (Mirrors.start g).addParameters hentering 0
  rw [List.nil_append] at hmirrors
  have hread (id : NodeId) (hid : id ∈ i.constants ++ i.nodes) : ∃ n, g.node? id = some n ∧
      n.isAnchor = false ∧ ∀ v ∈ n.inputs, c₁.Knows v ∨ v.node ∈ i.constants ++ i.nodes := by
    have hlive := h.contains (List.mem_append.mpr (List.mem_append.mp hid).symm)
    obtain ⟨n, hn⟩ := Arena.contains_iff.mp hlive
    refine ⟨n, hn, isAnchor_of_fits h hid hn, fun v hv => ?_⟩
    rcases List.mem_append.mp hid with hconstant | hmember
    · rw [inputs_of_constant ht hi (h.constants id hconstant).1 hn] at hv
      exact absurd hv List.not_mem_nil
    · by_cases hmem : v.node ∈ i.constants ++ i.nodes
      · exact .inr hmem
      · have hout := not_or.mp (List.mem_append.not.mp hmem)
        exact .inl (hknown v ((mem_inputs_iff e).mpr ⟨⟨id, hmember, n, hn, hv⟩, hout.2, hout.1⟩))
  have hsorted : (i.constants ++ i.nodes).Pairwise fun x y => ¬ g.Reads x y := by
    have hconstant (x : NodeId) (hx : x ∈ i.constants) (y : NodeId) : ¬ g.Reads x y :=
      h.not_reads_of_constant ht hi hx y
    refine List.pairwise_append.mpr ⟨?_, h.sorted, fun x hx y _ => hconstant x hx y⟩
    exact List.pairwise_iff_forall_sublist.mpr fun {x y} hxy =>
      hconstant x (hxy.subset List.mem_cons_self) y
  obtain ⟨c₂, h₂, hmirrors, hcopied, -⟩ := hmirrors.addCopies hg ht hi hread hsorted
  have hleaving (v : Value) (hv : v ∈ boundary.outputs) : c₂.Knows v := by
    obtain ⟨hmem, u, hu, -⟩ := (mem_outputs_iff e).mp hv
    exact hcopied v (Arena.hasOutput_of_mem_uses hu) (List.mem_append_right _ hmem)
  obtain ⟨c₃, h₃, hmirrors⟩ := hmirrors.addResults hleaving
  refine ⟨c₃, ?_, hmirrors⟩
  refine bind_eq_ok_iff.mpr ⟨c₁, ?_, bind_eq_ok_iff.mpr ⟨c₂, h₂, ?_⟩⟩
  · rw [ht]
    exact h₁
  · exact bind_eq_ok_iff.mpr ⟨c₃, h₃, rfl⟩

end Island

end Attention

end TensorGraph
