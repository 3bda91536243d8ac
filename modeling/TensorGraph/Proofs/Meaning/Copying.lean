import Mathlib.Data.List.Forall2
import TensorGraph.Attention.Fusion
import TensorGraph.Proofs.Meaning.Valuation

/-! # Meaning of copies

Nodes are copied into a body whose parameters stand for values of the graph. With the parameters
bound to those values, every copied output has the value of its original. So the body computes the
values that leave the copied nodes from those that enter them.
-/

namespace TensorGraph.Attention

variable {V : Type} {f : Operation Body → Meaning V} {env : NodeId → V} {g a b : Graph}
variable {σ τ : Value → V} {c c' : Copying} {ins outs : List Value} {v w : Value} {id : NodeId}

/-! ### Runs of the construction -/

theorem foldlM_induction {ε α s : Type} {step : s → α → Except ε s} {Q : s → List α → Prop}
    {l : List α} {x y : s} (done : List α)
    (hstep : ∀ {x y : s} {before : List α} {u : α}, before ++ [u] <+: done ++ l → Q x before →
      step x u = .ok y → Q y (before ++ [u]))
    (h : Q x done) (e : l.foldlM step x = .ok y) : Q y (done ++ l) := by
  induction l generalizing x done with
  | nil =>
    obtain rfl := Except.ok.inj e
    rwa [List.append_nil]
  | cons u l ih =>
    rw [List.foldlM_cons] at e
    obtain ⟨z, hz, e⟩ := bind_eq_ok_iff.mp e
    have hdone : (done ++ [u]) ++ l = done ++ u :: l := List.append_assoc ..
    rw [← hdone] at hstep ⊢
    exact ih _ hstep (hstep (List.prefix_append _ _) h hz) e

/-- What holds to start with, and stays true with every parameter, copy and result, holds of the
body for an island. -/
theorem Island.body_induction {P : Copying → List Value → List NodeId → List Value → Prop}
    {boundary : Boundary} {body : Graph} (i : Island) (hstart : P (.start g.table) [] [] [])
    (hparameter : ∀ {c c' : Copying} {ins : List Value} {v : Value} {position : Nat},
      P c ins [] [] → c.addParameter g v position = .ok c' → P c' (ins ++ [v]) [] [])
    (hcopy : ∀ {c c' : Copying} {ids : List NodeId} {id : NodeId},
      ids ++ [id] <+: i.constants ++ i.nodes → P c boundary.inputs ids [] →
        c.addCopy g id = .ok c' → P c' boundary.inputs (ids ++ [id]) [])
    (hresult : ∀ {c c' : Copying} {outs : List Value} {v : Value},
      P c boundary.inputs (i.constants ++ i.nodes) outs → c.addResult v = .ok c' →
        P c' boundary.inputs (i.constants ++ i.nodes) (outs ++ [v]))
    (e : i.body g boundary = .ok body) :
    ∃ c, c.body = body ∧ P c boundary.inputs (i.constants ++ i.nodes) boundary.outputs := by
  obtain ⟨c₁, h₁, e⟩ := bind_eq_ok_iff.mp e
  obtain ⟨c₂, h₂, e⟩ := bind_eq_ok_iff.mp e
  obtain ⟨c₃, h₃, e⟩ := bind_eq_ok_iff.mp e
  have hparameters : P c₁ boundary.inputs [] [] := by
    have hinputs := foldlM_induction (Q := fun c done => P c (done.map Prod.fst) [] []) []
      (fun _ h hc => by
        rw [List.map_append]
        exact hparameter h hc) hstart h₁
    rwa [List.nil_append, List.zipIdx_map_fst] at hinputs
  have hcopies : P c₂ boundary.inputs (i.constants ++ i.nodes) [] :=
    foldlM_induction (Q := fun c ids => P c boundary.inputs ids []) []
      (fun hids => hcopy hids) hparameters h₂
  refine ⟨c₃, Except.ok.inj e, ?_⟩
  exact foldlM_induction (Q := fun c outs => P c boundary.inputs _ outs) []
    (fun _ => hresult) hcopies h₃

/-! ### Values of copies -/

/-- A valuation of a body whose parameters have the values that the given ones have outside. -/
structure Bound (f : Operation Body → Meaning V) (σ : Value → V) (body : Graph)
    (ins : List Value) (env : NodeId → V) (τ : Value → V) : Prop where
  valuation : body.Valuation f env τ
  inputs : ∀ (j : Nat) (x : NodeId) (v : Value), body.parameters[j]? = some x →
    ins[j]? = some v → env x = σ v

theorem Bound.of_grown {op : Operation Body} {inputs ins' : List Value}
    (h : Bound f σ b ins' env τ) (hg : a.Grown b id op inputs)
    (hp : a.parameters <+: b.parameters) (hi : ins <+: ins') : Bound f σ a ins env τ where
  valuation := h.valuation.of_part fun _ hx => hg.part hx
  inputs j x v hx hv := by
    obtain ⟨xs, hxs⟩ := hp
    obtain ⟨vs, rfl⟩ := hi
    refine h.inputs j x v ?_ ?_
    · rw [← hxs, List.getElem?_append_left (List.getElem?_eq_some_iff.mp hx).1, hx]
    · rw [List.getElem?_append_left (List.getElem?_eq_some_iff.mp hv).1, hv]

/-- A body under construction with parameters for the first values and results for the second
ones, in which copies have the values of their originals. -/
structure Copies (f : Operation Body → Meaning V) (σ : Value → V) (c : Copying)
    (ins outs : List Value) : Prop where
  wellFormed : c.body.WellFormed
  nodup : c.body.parameters.Nodup
  parameters : c.body.parameters.length = ins.length
  results : c.body.results.length = outs.length
  known : ∀ x ∈ c.known, ∀ env τ, Bound f σ c.body ins env τ → τ x.2 = σ x.1
  received : ∀ (k : Nat) (r : NodeId) (v : Value), c.body.results[k]? = some r →
    outs[k]? = some v → ∃ w, c.body.producer? (r.input 0) = some w ∧
      ∀ env τ, Bound f σ c.body ins env τ → τ w = σ v

namespace Copies

theorem start (table : CapabilityTable) : Copies f σ (.start table) [] [] where
  wellFormed := Arena.wellFormed_empty table
  nodup := .nil
  parameters := rfl
  results := rfl
  known _ hx := absurd hx List.not_mem_nil
  received k r v hr := by cases hr

theorem mem_of_value (e : c.value v = .ok w) : (v, w) ∈ c.known := by
  unfold Copying.value at e
  split at e
  · rename_i x hx
    have hv : x.1 = v := by simpa using List.find?_some hx
    obtain rfl := Except.ok.inj e
    rw [← hv]
    exact List.mem_of_find?_eq_some hx
  · cases e

/-- Something is known of every value that is looked up in a list. -/
theorem forall₂_known {vs ws : List Value} (e : vs.mapM c.value = .ok ws) :
    List.Forall₂ (fun v w => (v, w) ∈ c.known) vs ws := by
  induction vs generalizing ws with
  | nil =>
    obtain rfl := Except.ok.inj e
    exact .nil
  | cons v vs ih =>
    rw [List.mapM_cons] at e
    obtain ⟨w, hw, e⟩ := bind_eq_ok_iff.mp e
    obtain ⟨ws, hws, e⟩ := bind_eq_ok_iff.mp e
    obtain rfl := Except.ok.inj e
    exact .cons (mem_of_value hw) (ih hws)

theorem map_value (h : Copies f σ c ins outs) (hb : Bound f σ c.body ins env τ)
    {vs ws : List Value} (e : vs.mapM c.value = .ok ws) : ws.map τ = vs.map σ := by
  symm
  rw [← List.forall₂_eq_eq_eq, List.forall₂_map_left_iff, List.forall₂_map_right_iff]
  exact (forall₂_known e).imp fun _ _ hk => (h.known _ hk env τ hb).symm

theorem received_of_grown (h : Copies f σ c ins outs) {op : Operation Body}
    {inputs ins' : List Value} (hg : c.body.Grown b id op inputs)
    (hp : c.body.parameters <+: b.parameters) (hi : ins <+: ins') {k : Nat} {r : NodeId}
    (hr : c.body.results[k]? = some r) (hv : outs[k]? = some v) :
    ∃ w, b.producer? (r.input 0) = some w ∧ ∀ env τ, Bound f σ b ins' env τ → τ w = σ v := by
  obtain ⟨w, hw, hτ⟩ := h.received k r v hr hv
  refine ⟨w, ?_, fun env τ hb => hτ env τ (hb.of_grown hg hp hi)⟩
  obtain ⟨n, hn, -⟩ := Arena.producer?_eq_some_iff.mp hw
  rw [Arena.producer?_eq_bare, ← hg.part (Arena.contains_of_node? hn),
    ← Arena.producer?_eq_bare, hw]

/-! ### Parameters -/

theorem addParameter_eq_ok {position : Nat} (e : c.addParameter g v position = .ok c') :
    ∃ b id name spec, c.body.addParameter name spec = (b, id) ∧
      c'.body = b ∧ c'.known = (v, id.output 0) :: c.known := by
  unfold Copying.addParameter at e
  split at e
  · cases e
  rename_i spec hspec
  obtain ⟨producer, -, e⟩ := bind_eq_ok_iff.mp e
  have hc' := Except.ok.inj e
  exact ⟨_, _, c.parameterName position producer.name, spec, rfl,
    congrArg Copying.body hc'.symm, congrArg Copying.known hc'.symm⟩

theorem addParameter (h : Copies f σ c ins outs) {position : Nat}
    (e : c.addParameter g v position = .ok c') : Copies f σ c' (ins ++ [v]) outs := by
  obtain ⟨b, id, name, spec, hb, rfl, hknown⟩ := addParameter_eq_ok e
  have hg := h.wellFormed.grown_addParameter name spec
  obtain ⟨hp, hr⟩ := Arena.addParameter_lists h.wellFormed name spec
  rw [hb] at hg hp hr
  have hprefix : c.body.parameters <+: c'.body.parameters := ⟨[id], hp.symm⟩
  have hins : ins <+: ins ++ [v] := List.prefix_append ins [v]
  refine ⟨hg.wellFormed, ?_, ?_, ?_, ?_, fun k r v hk hv => ?_⟩
  · rw [hp]
    exact List.nodup_append.mpr ⟨h.nodup, List.nodup_singleton id, fun x hx y hy he =>
      hg.not_mem h.wellFormed (List.mem_singleton.mp hy ▸ he ▸ hx)⟩
  · rw [hp, List.length_append, List.length_append, h.parameters]
    rfl
  · rw [hr, h.results]
  · rw [hknown]
    refine List.forall_mem_cons.mpr ⟨fun env τ hb => ?_, fun x hx env τ hb =>
      h.known x hx env τ (hb.of_grown hg hprefix hins)⟩
    obtain ⟨n, hn, hop, -⟩ := hg.new
    have hparameter : n.kind = .parameter := congrArg Operation.kind hop
    refine (Arena.valuation_iff_bare.mp hb.valuation id n hn 0).trans ?_
    rw [if_pos hparameter]
    refine hb.inputs ins.length id v ?_ ?_
    · rw [hp, ← h.parameters]
      exact List.getElem?_concat_length
    · exact List.getElem?_concat_length
  · exact h.received_of_grown hg hprefix hins (hr ▸ hk) hv

/-! ### Copies -/

theorem addCopy_eq_ok (e : c.addCopy g id = .ok c') :
    ∃ n ws b copy, g.node? id = some n ∧ n.inputs.mapM c.value = .ok ws ∧
      c.body.addVerbatim n.op ws n.specs = .ok (b, copy) ∧
      c'.body = b.modifyNode copy.index (fun m =>
        { m with name := n.name, annotations := n.annotations }) ∧
      c'.known = (List.range n.outputs.length).map
        (fun port => (id.output port, copy.output port)) ++ c.known := by
  obtain ⟨n, hn, e⟩ := bind_eq_ok_iff.mp e
  obtain ⟨ws, hws, e⟩ := bind_eq_ok_iff.mp e
  obtain ⟨⟨b, copy⟩, hb, e⟩ := bind_eq_ok_iff.mp e
  have hc' := Except.ok.inj e
  exact ⟨n, ws, b, copy, Arena.node_eq_ok_iff.mp hn, hws, hb,
    congrArg Copying.body hc'.symm, congrArg Copying.known hc'.symm⟩

/-- Copying a node that is no anchor keeps the lists of parameters and results. -/
theorem addCopy (h : Copies f σ c ins outs) (hσ : g.Valuation f env σ)
    (hanchor : ∀ n, g.node? id = some n → n.isAnchor = false)
    (e : c.addCopy g id = .ok c') : Copies f σ c' ins outs := by
  obtain ⟨n, ws, b, copy, hn, hws, hb, hbody, hknown⟩ := addCopy_eq_ok e
  have hkind : n.op.kind.isAnchor = false := hanchor n hn
  have hg := (h.wellFormed.grown_addVerbatim hb).remark n.name n.annotations
  obtain ⟨hp, hr⟩ := Arena.addVerbatim_lists h.wellFormed hb
  rw [Arena.enlist_of_not_isAnchor hkind] at hp hr
  rw [← hbody] at hg
  have hp' : c'.body.parameters = c.body.parameters := by rw [hbody, ← hp]; rfl
  have hr' : c'.body.results = c.body.results := by rw [hbody, ← hr]; rfl
  have hprefix : c.body.parameters <+: c'.body.parameters := ⟨[], by rw [hp', List.append_nil]⟩
  have hold {env : NodeId → V} {τ : Value → V} (hb : Bound f σ c'.body ins env τ) :
      Bound f σ c.body ins env τ := hb.of_grown hg hprefix List.prefix_rfl
  refine ⟨hg.wellFormed, hp' ▸ h.nodup, hp' ▸ h.parameters, hr' ▸ h.results,
    fun x hx env τ hb => ?_, fun k r v hk hv =>
      h.received_of_grown hg hprefix List.prefix_rfl (hr' ▸ hk) hv⟩
  rw [hknown] at hx
  rcases List.mem_append.mp hx with hx | hx
  · obtain ⟨port, -, rfl⟩ := List.mem_map.mp hx
    obtain ⟨m, hm, hop, hinputs⟩ := hg.new
    have hnot {k : Kind} (hk : k.isAnchor = false) : k ≠ .parameter := by
      rintro rfl
      cases hk
    have hm' : m.kind ≠ .parameter := (congrArg Operation.kind hop).trans_ne (hnot hkind)
    have hcopy := Arena.valuation_iff_bare.mp hb.valuation copy m hm port
    have horiginal := hσ id n hn port
    rw [if_neg hm', hop, hinputs, h.map_value (hold hb) hws] at hcopy
    rw [if_neg (hnot hkind : n.kind ≠ .parameter)] at horiginal
    exact hcopy.trans horiginal.symm
  · exact h.known x hx env τ (hold hb)

/-! ### Results -/

theorem addResult_eq_ok (e : c.addResult v = .ok c') :
    ∃ w b r outputs, (v, w) ∈ c.known ∧
      c.body.addVerbatim Primitive.result [w] outputs = .ok (b, r) ∧
      c'.body = b ∧ c'.known = c.known := by
  obtain ⟨w, hw, e⟩ := bind_eq_ok_iff.mp e
  obtain ⟨⟨b, r⟩, hb, e⟩ := bind_eq_ok_iff.mp e
  obtain ⟨specs, -, hb⟩ := bind_eq_ok_iff.mp hb
  obtain ⟨outputs, -, hb⟩ := bind_eq_ok_iff.mp hb
  have hc' := Except.ok.inj e
  exact ⟨w, b, r, outputs, mem_of_value hw, hb, by rw [← hc'], by rw [← hc']⟩

theorem addResult (h : Copies f σ c ins outs) (e : c.addResult v = .ok c') :
    Copies f σ c' ins (outs ++ [v]) := by
  obtain ⟨w, b, r, outputs, hw, hb, rfl, hknown⟩ := addResult_eq_ok e
  have hg := h.wellFormed.grown_addVerbatim hb
  obtain ⟨hp, hr⟩ := Arena.addVerbatim_lists h.wellFormed hb
  have hprefix : c.body.parameters <+: c'.body.parameters := ⟨[], by
    rw [List.append_nil]
    exact hp.symm⟩
  have hold {env : NodeId → V} {τ : Value → V} (hb : Bound f σ c'.body ins env τ) :
      Bound f σ c.body ins env τ := hb.of_grown hg hprefix List.prefix_rfl
  have hlen : c'.body.results.length = (outs ++ [v]).length := by
    rw [hr, List.length_append, ← h.results]
    exact List.length_append
  refine ⟨hg.wellFormed, hp ▸ h.nodup, hp ▸ h.parameters, hlen,
    fun x hx env τ hb => h.known x (hknown ▸ hx) env τ (hold hb), fun k r' v' hk hv => ?_⟩
  have hresults : c'.body.results = c.body.results ++ [r] := hr
  rw [hresults] at hk
  rcases Nat.lt_or_ge k c.body.results.length with hlt | hge
  · rw [List.getElem?_append_left hlt] at hk
    rw [List.getElem?_append_left (h.results ▸ hlt)] at hv
    exact h.received_of_grown hg hprefix List.prefix_rfl hk hv
  · have hk' : k = c.body.results.length := by
      have hlt := (List.getElem?_eq_some_iff.mp hk).1
      rw [List.length_append, List.length_singleton] at hlt
      omega
    obtain rfl : r = r' := by
      rw [hk', List.getElem?_concat_length] at hk
      exact Option.some.inj hk
    obtain rfl : v = v' := by
      rw [hk', h.results, List.getElem?_concat_length] at hv
      exact Option.some.inj hv
    obtain ⟨m, hm, -, hinputs⟩ := hg.new
    refine ⟨w, ?_, fun env τ hb => h.known _ hw env τ (hold hb)⟩
    rw [Arena.producer?_eq_bare]
    exact (congrArg (Option.bind · _) hm).trans (congrArg (·[0]?) hinputs)

theorem meaning_eq [Inhabited V] (h : Copies f σ c ins outs) {port : Nat}
    (hv : outs[port]? = some v) : c.body.meaning f (ins.map σ) port = σ v := by
  have hlt : port < c.body.results.length := h.results ▸ (List.getElem?_eq_some_iff.mp hv).1
  obtain ⟨w, hw, hτ⟩ := h.received port _ v (List.getElem?_eq_getElem hlt) hv
  have hbound : Bound f σ c.body ins
      (fun x => (ins.map σ).getD (c.body.parameters.idxOf x) default)
      (c.body.valueOf f fun x => (ins.map σ).getD (c.body.parameters.idxOf x) default) := by
    refine ⟨h.wellFormed.valuation _ _, fun j x v hx hv => ?_⟩
    obtain ⟨hj, rfl⟩ := List.getElem?_eq_some_iff.mp hx
    rw [h.nodup.idxOf_getElem, List.getD_eq_getElem?_getD, List.getElem?_map, hv]
    rfl
  rw [Arena.meaning, List.getElem?_eq_getElem hlt, Option.bind_some, hw]
  exact hτ _ _ hbound

end Copies

theorem Island.meaning_body [Inhabited V] {i : Island} {boundary : Boundary} {body : Graph}
    (hσ : g.Valuation f env σ)
    (hanchor : ∀ id ∈ i.constants ++ i.nodes, ∀ n, g.node? id = some n → n.isAnchor = false)
    (e : i.body g boundary = .ok body) {port : Nat} (hv : boundary.outputs[port]? = some v) :
    body.meaning f (boundary.inputs.map σ) port = σ v := by
  obtain ⟨c, rfl, hcopies⟩ := i.body_induction (P := fun c ins _ outs => Copies f σ c ins outs)
    (.start g.table) (fun h hc => h.addParameter hc)
    (fun hids h hc => h.addCopy hσ (hanchor _ (hids.subset List.mem_concat_self)) hc)
    (fun h hc => h.addResult hc) e
  exact hcopies.meaning_eq hv

end TensorGraph.Attention
