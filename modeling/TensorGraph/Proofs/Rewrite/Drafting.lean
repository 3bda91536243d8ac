import TensorGraph.Proofs.Inference.Typing
import TensorGraph.Proofs.Rewrite.Staging
import TensorGraph.Rewrite.Staging

/-! # Drafts

A rewrite drafts its plan step by step. What the drafts of one rewrite have in common is that
they replace outputs of one node and read only what lies above that node. A plan like that is
accepted: what replaces an output never depends on what reads the output.
-/

namespace TensorGraph

open Relation

/-- Where a rewrite takes place. -/
structure Site where
  graph : Graph
  /-- The node whose outputs are replaced. -/
  root : NodeId
  /-- The root or a node that it depends on; only what lies above may be read. -/
  via : NodeId
  /-- The kinds of nodes that may be staged. -/
  kinds : Kind → Prop
  table : graph.table = .standard
  reaches : ReflTransGen graph.Reads root via

variable {c : Site} {p q r : Plan Body} {x : Operand} {v : Value} {i k : Nat}

def Operand.Above (c : Site) : Operand → Prop
  | .graph v => TransGen c.graph.Reads c.via v.node
  | .staged _ _ => True

namespace Plan

structure Draft (c : Site) (p : Plan Body) : Prop where
  typed : p.Typed c.graph
  operands : ∀ i n, p.staged[i]? = some n → ∀ x ∈ n.inputs,
    p.Available c.graph i x ∧ x.Above c
  kinds : ∀ n ∈ p.staged, c.kinds n.op.kind
  sources : ∀ id ∈ p.sources, c.graph.contains id = true
  replacements : ∀ r ∈ p.replacements, r.1.node = c.root ∧ r.2.Above c ∧
    ∃ t, c.graph.type? r.1 = some t ∧ p.type? c.graph r.2 = some t

/-- What is staged keeps its outputs, and what is replaced stays replaced. -/
structure Grows (p q : Plan Body) : Prop where
  spec : ∀ (a : Graph) x s, p.spec? a x = some s → q.spec? a x = some s
  replacements : p.replacements ⊆ q.replacements

theorem Grows.refl (p : Plan Body) : p.Grows p := ⟨fun _ _ _ h => h, fun _ h => h⟩

theorem Grows.trans (h : p.Grows q) (h' : q.Grows r) : p.Grows r :=
  ⟨fun a x s hs => h'.spec a x s (h.spec a x s hs), fun _ hr => h'.replacements (h.replacements hr)⟩

theorem Grows.type? (h : p.Grows q) {g : Graph} {t : ElementType} (ht : p.type? g x = some t) :
    q.type? g x = some t := by
  obtain ⟨s, hs, rfl⟩ := Option.map_eq_some_iff.mp ht
  exact congrArg (Option.map Spec.elementType) (h.spec g x s hs)

theorem Grows.types (h : p.Grows q) {g : Graph} {op : Operation Body} {inputs : List Operand}
    {outs : List ElementType} (ht : op.Types (inputs.map (p.type? g)) outs) :
    op.Types (inputs.map (q.type? g)) outs := by
  have hinputs : inputs.map (q.type? g) = inputs.map (p.type? g) := by
    refine List.map_congr_left fun x hx => ?_
    obtain ⟨t, ht⟩ := ht.exists_type (List.mem_map_of_mem hx)
    rw [ht, h.type? ht]
  rwa [hinputs]

theorem Grows.available (h : p.Grows q) {g : Graph} (hx : p.Available g i x) :
    q.Available g i x := by
  cases x with
  | graph v => exact hx
  | staged j port =>
    obtain ⟨s, hs⟩ := Option.isSome_iff_exists.mp hx.2
    exact ⟨hx.1, Option.isSome_of_eq_some (h.spec g _ s hs)⟩

theorem draft_empty (c : Site) : empty.Draft c where
  typed _ hn := absurd hn List.not_mem_nil
  operands _ _ hn := absurd hn (by simp [empty])
  kinds _ hn := absurd hn List.not_mem_nil
  sources _ hid := absurd hid List.not_mem_nil
  replacements _ hr := absurd hr List.not_mem_nil

/-! ### What a step leaves -/

section Stage

variable {n : StagedNode Body}

def stage (p : Plan Body) (n : StagedNode Body) : Plan Body := { p with staged := p.staged ++ [n] }

theorem grows_stage (p : Plan Body) (n : StagedNode Body) : p.Grows (p.stage n) := by
  refine ⟨fun a x s hs => ?_, fun _ hr => hr⟩
  cases x with
  | graph v => exact hs
  | staged j port =>
    obtain ⟨m, hm, hport⟩ := Option.bind_eq_some_iff.mp hs
    refine Option.bind_eq_some_iff.mpr ⟨m, ?_, hport⟩
    exact (List.getElem?_append_left (List.getElem?_eq_some_iff.mp hm).1).trans hm

theorem getElem?_stage {m : StagedNode Body} (h : (p.stage n).staged[i]? = some m) :
    p.staged[i]? = some m ∨ i = p.staged.length ∧ n = m := by
  rw [stage, List.getElem?_append] at h
  split at h
  · exact .inl h
  · rename_i hle
    rw [List.getElem?_singleton] at h
    split at h
    · exact .inr ⟨by omega, Option.some.inj h⟩
    · cases h

theorem available_of_spec? {s : Spec} (hs : p.spec? c.graph x = some s) :
    p.Available c.graph p.staged.length x := by
  cases x with
  | graph v =>
    exact Arena.hasOutput_of_spec? hs
  | staged j port =>
    obtain ⟨m, hm, -⟩ := Option.bind_eq_some_iff.mp hs
    exact ⟨(List.getElem?_eq_some_iff.mp hm).1, Option.isSome_of_eq_some hs⟩

theorem Draft.stage (hp : p.Draft c) (hk : c.kinds n.op.kind) (hx : ∀ x ∈ n.inputs, x.Above c)
    (ht : n.op.Types (n.inputs.map (p.type? c.graph)) (n.outputs.map Spec.elementType)) :
    (p.stage n).Draft c := by
  have hgrows := grows_stage p n
  refine ⟨fun m hm => ?_, fun j m hm y hy => ?_, fun m hm => ?_, hp.sources, fun r hr => ?_⟩
  · rcases List.mem_append.mp hm with hm | hm
    · exact hgrows.types (hp.typed m hm)
    · obtain rfl := List.mem_singleton.mp hm
      exact hgrows.types ht
  · rcases getElem?_stage hm with hm | ⟨rfl, rfl⟩
    · obtain ⟨havailable, habove⟩ := hp.operands j m hm y hy
      exact ⟨hgrows.available havailable, habove⟩
    · obtain ⟨t, hty⟩ := ht.exists_type (List.mem_map_of_mem hy)
      obtain ⟨s, hs, -⟩ := Option.map_eq_some_iff.mp hty
      exact ⟨hgrows.available (available_of_spec? hs), hx y hy⟩
  · rcases List.mem_append.mp hm with hm | hm
    · exact hp.kinds m hm
    · obtain rfl := List.mem_singleton.mp hm
      exact hk
  · obtain ⟨hroot, habove, t, hold, hnew⟩ := hp.replacements r hr
    exact ⟨hroot, habove, t, hold, hgrows.type? hnew⟩

end Stage

theorem Renamed.grows (h : p.Renamed q) : p.Grows q :=
  ⟨fun _ x _ hs => (h.spec?_eq x).trans hs, fun _ hr => h.replacements ▸ hr⟩

theorem Draft.rename (hp : p.Draft c) (h : p.Renamed q) : q.Draft c := by
  refine ⟨fun m hm => ?_, fun i m hm y hy => ?_, fun m hm => ?_, ?_, fun r hr => ?_⟩
  · obtain ⟨n, hn, hm⟩ := h.exists_of_mem hm
    rw [hm]
    exact h.grows.types (hp.typed n hn)
  · obtain ⟨n, hn, hm⟩ := h.exists_of_getElem? hm
    rw [hm] at hy
    obtain ⟨havailable, habove⟩ := hp.operands i n hn y hy
    exact ⟨h.grows.available havailable, habove⟩
  · obtain ⟨n, hn, hm⟩ := h.exists_of_mem hm
    rw [hm]
    exact hp.kinds n hn
  · rw [h.sources]
    exact hp.sources
  · rw [h.replacements] at hr
    obtain ⟨hroot, habove, t, hold, hnew⟩ := hp.replacements r hr
    exact ⟨hroot, habove, t, hold, h.grows.type? hnew⟩

/-! ### Drafts are accepted -/

namespace Draft

theorem above_of_mem_dependencies (hp : p.Draft c) {y : NodeId}
    (hy : y ∈ p.dependencies c.graph) : TransGen c.graph.Reads c.root y := by
  have hstaged {j : Nat} {w : Value} (hw : .graph w ∈ p.stagedInputs j) :
      TransGen c.graph.Reads c.via w.node := by
    unfold stagedInputs at hw
    cases hn : p.staged[j]? with
    | none => simp [hn] at hw
    | some n => exact (hp.operands j n hn _ (by simpa [hn] using hw)).2
  obtain ⟨z, hz, hpath⟩ := Arena.exists_root_of_mem_ancestors hy
  refine TransGen.trans_left ?_ hpath
  obtain ⟨x, hx, hxz⟩ := List.mem_filterMap.mp hz
  cases x with
  | staged j port => cases hxz
  | graph w =>
    obtain rfl := Option.some.inj hxz
    refine TransGen.trans_right c.reaches ?_
    rcases List.mem_append.mp hx with hx | hx
    · obtain ⟨r, hr, he⟩ := List.mem_map.mp hx
      have habove := (hp.replacements r hr).2.1
      rwa [he] at habove
    · obtain ⟨j, -, hw⟩ := List.mem_flatMap.mp hx
      exact hstaged hw

theorem accepted (hp : p.Draft c) (hg : c.graph.WellFormed) : p.Accepted c.graph where
  operands i n hn x hx := (hp.operands i n hn x hx).1
  sources := hp.sources
  replacements r hr := by
    obtain ⟨hroot, habove, t, htold, htnew⟩ := hp.replacements r hr
    obtain ⟨old, hold, ht⟩ := Option.map_eq_some_iff.mp htold
    obtain ⟨new, hnew, ht'⟩ := Option.map_eq_some_iff.mp htnew
    refine ⟨fun he => ?_, old, new, hold, hnew, ht.trans ht'.symm⟩
    rw [he, Operand.Above, hroot] at habove
    exact hg.acyclic c.root (TransGen.trans_right c.reaches habove)
  acyclic r hr u hu hdep := by
    have hread := Arena.reads_of_producer? (hg.linked.mem_uses_iff.mp hu)
    rw [(hp.replacements r hr).1] at hread
    exact hg.acyclic c.root ((hp.above_of_mem_dependencies hdep).tail hread)

end Draft

end Plan

/-! ### Steps of a draft -/

namespace Staging

variable {α γ : Type} {s : Staging α} {f : α → Staging γ} {p₀ : Plan Body}
variable {Q : α → Plan Body → Prop} {R : γ → Plan Body → Prop}

/-- Unless it gives up, a step makes a later draft of a draft, such that the condition holds. -/
def Ensures (c : Site) (p : Plan Body) (s : Staging α) (Q : α → Plan Body → Prop) : Prop :=
  p.Draft c → ∀ a q, s p = .ok (a, q) → q.Draft c ∧ p.Grows q ∧ Q a q

theorem ensures_pure {a : α} (h : Q a p) : Ensures c p (pure a) Q := by
  intro hp b q e
  obtain ⟨rfl, rfl⟩ := Prod.mk.inj (Except.ok.inj e)
  exact ⟨hp, .refl _, h⟩

theorem Ensures.mono {Q' : α → Plan Body → Prop} (h : Ensures c p s Q)
    (hQ : ∀ a q, Q a q → Q' a q) : Ensures c p s Q' := by
  intro hp a q e
  obtain ⟨hq, hgrows, h⟩ := h hp a q e
  exact ⟨hq, hgrows, hQ a q h⟩

theorem Ensures.grown (h : Ensures c p s Q) :
    Ensures c p s fun a q => p.Grows q ∧ Q a q := by
  intro hp a q e
  obtain ⟨hq, hgrows, h⟩ := h hp a q e
  exact ⟨hq, hgrows, hgrows, h⟩

/-- The steps after the first are taken from any plan that grew out of an earlier one. -/
theorem Ensures.bind (hp₀ : p₀.Grows p) (hs : Ensures c p s Q)
    (hf : ∀ a q, p₀.Grows q → Q a q → Ensures c q (f a) R) : Ensures c p (s >>= f) R := by
  intro hp b r e
  obtain ⟨a, q, ha, hb⟩ := bind_ok_iff.mp e
  obtain ⟨hq, hgrows, hQ⟩ := hs hp a q ha
  obtain ⟨hr, hgrows', hR⟩ := hf a q (hp₀.trans hgrows) hQ hq b r hb
  exact ⟨hr, hgrows.trans hgrows', hR⟩

theorem ensures_ofAttempt {x : Attempt α} :
    Ensures c p (ofAttempt x) fun a q => x = .ok a ∧ q = p := by
  intro hp a q e
  obtain ⟨hx, rfl⟩ := ofAttempt_eq_ok_iff.mp e
  exact ⟨hp, .refl _, hx, rfl⟩

theorem ensures_ofOption {o : Option α} :
    Ensures c p (ofOption o) fun a q => o = some a ∧ q = p :=
  ensures_ofAttempt.mono fun _ _ h => ⟨Attempt.ofOption_eq_ok_iff.mp h.1, h.2⟩

theorem ensures_check {condition : Bool} :
    Ensures c p (check condition) fun _ q => condition = true ∧ q = p := by
  intro hp a q e
  obtain ⟨hcondition, rfl⟩ := check_eq_ok_iff.mp e
  exact ⟨hp, .refl _, hcondition, rfl⟩

theorem ensures_spec : Ensures c p (spec c.graph x) fun s q => p.spec? c.graph x = some s ∧ q = p :=
  fun hp => ensures_ofOption hp

/-- A staged node and its outputs are of types such as inference gives. -/
theorem ensures_make {op : Operation Body} {inputs : List Operand} (hk : c.kinds op.kind)
    (hx : ∀ x ∈ inputs, x.Above c) : Ensures c p (make c.graph op inputs) fun k q =>
      (∃ outs, op.Types (inputs.map (q.type? c.graph)) outs ∧
        ∀ port, q.type? c.graph (.staged k port) = outs[port]?) ∧
      q.staged.length = p.staged.length + 1 := by
  intro hp k q e
  obtain ⟨specs, outputs, hspecs, houtputs, rfl, rfl⟩ :=
    Plan.make_eq_ok_iff.mp (make_eq_ok_iff.mp e)
  have hin := (mapM_eq_ok_iff fun _ _ => Plan.operandSpec_eq_ok_iff).mp hspecs
  have hty : op.Types (inputs.map (p.type? c.graph)) (outputs.map Spec.elementType) := by
    refine ⟨specs, outputs, ?_, ?_, rfl⟩
    · have htypes := congrArg (List.map (Option.map Spec.elementType)) hin
      rw [List.map_map, List.map_map] at htypes
      exact htypes.symm
    · rw [← c.table]
      exact houtputs
  have hgrows := Plan.grows_stage p ⟨op, inputs, outputs, "", .empty⟩
  refine ⟨hp.stage hk hx hty, hgrows, ⟨_, hgrows.types hty, fun port => ?_⟩, ?_⟩
  · simp [Plan.type?, Plan.spec?]
  · simp

theorem ensures_makeValue {op : Operation Body} {inputs : List Operand} (hk : c.kinds op.kind)
    (hx : ∀ x ∈ inputs, x.Above c) : Ensures c p (makeValue c.graph op inputs) fun x q =>
      x.Above c ∧
      (∃ outs, op.Types (inputs.map (q.type? c.graph)) outs ∧ q.type? c.graph x = outs[0]?) ∧
      q.staged.length = p.staged.length + 1 := by
  refine .bind (.refl _) (ensures_make hk hx) ?_
  rintro k q - ⟨⟨outs, htypes, hports⟩, hlen⟩
  exact ensures_pure ⟨trivial, ⟨outs, htypes, hports 0⟩, hlen⟩

theorem ensures_rename {name : String} : Ensures c p (rename k name) fun _ _ => True := by
  intro hp a q e
  have h := renamed_of_eq_ok e
  exact ⟨hp.rename h, h.grows, trivial⟩

theorem ensures_inherit {sources : List NodeId}
    (h : ∀ id ∈ sources, c.graph.contains id = true) :
    Ensures c p (inherit sources) fun _ q => q.staged = p.staged := by
  intro hp a q e
  obtain rfl := inherit_eq_ok_iff.mp e
  refine ⟨⟨hp.typed, hp.operands, hp.kinds, fun id hid => ?_, hp.replacements⟩,
    ⟨fun _ _ _ hs => hs, fun _ hr => hr⟩, rfl⟩
  rcases Plan.mem_inherit_iff.mp hid with hid | hid
  · exact hp.sources id hid
  · exact h id hid

theorem ensures_replace {t : ElementType} (hv : v.node = c.root) (hx : x.Above c)
    (hold : c.graph.type? v = some t) (hnew : p.type? c.graph x = some t) :
    Ensures c p (replace v x) fun _ q => q.staged = p.staged ∧ (v, x) ∈ q.replacements := by
  intro hp a q e
  obtain rfl := replace_eq_ok_iff.mp e
  refine ⟨⟨hp.typed, hp.operands, hp.kinds, hp.sources, fun r hr => ?_⟩,
    ⟨fun _ _ _ hs => hs, fun _ hr => List.mem_append_left _ hr⟩, rfl,
    List.mem_append_right _ List.mem_cons_self⟩
  rcases List.mem_append.mp hr with hr | hr
  · exact hp.replacements r hr
  · obtain rfl := List.mem_singleton.mp hr
    exact ⟨hv, hx, t, hold, hnew⟩

/-- The plan that the steps leave is a draft, and accepted as it is. -/
theorem Ensures.toPlan {s : Staging Unit} {Q : Unit → Plan Body → Prop}
    (h : Ensures c .empty s Q) (e : s.toPlan = .ok p) : p.Draft c ∧ Q () p := by
  obtain ⟨hq, -, hQ⟩ := h (Plan.draft_empty c) () p (toPlan_eq_ok_iff.mp e)
  exact ⟨hq, hQ⟩

end Staging

end TensorGraph
