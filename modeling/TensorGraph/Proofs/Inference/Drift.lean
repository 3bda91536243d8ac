import TensorGraph.Proofs.Inference.Recorded
import TensorGraph.Proofs.Rewrite.Reading

/-! # Specs that drift

The nodes that read a replaced value keep the outputs they have, whatever the spec of the value in
its place. So in the course of a run their outputs are those that inference gives, but on specs
that their inputs had before.
-/

namespace TensorGraph

/-- What may become of the spec of a value that a node reads. -/
structure Drift where
  /-- For an input of a node of that kind: its spec, and the one that the outputs were inferred
  from. -/
  rel : Kind → Spec → Spec → Prop
  /-- The kinds of nodes that may be staged. -/
  staged : Kind → Prop
  trans : ∀ {k a b c}, rel k a b → rel k b c → rel k a c
  same : ∀ {k s}, staged k → rel k s s

variable {d : Drift} {g h : Graph} {p q : Plan Body} {v : Value} {x : Operand}

/-! ### Plans whose staged nodes are inferred -/

namespace Plan

/-- Staged nodes are of these kinds and have the outputs that inference gives. -/
def Infers (p : Plan Body) (g : Graph) (K : Kind → Prop) : Prop :=
  ∀ n ∈ p.content, K n.1.kind ∧ ∃ given, n.2.1.map (p.spec? g) = given.map some ∧
    g.infer n.1 given = .ok n.2.2

theorem infers_empty (g : Graph) (K : Kind → Prop) : empty.Infers g K :=
  fun _ hn => absurd hn List.not_mem_nil

theorem Infers.of_content {K : Kind → Prop} (hp : p.Infers g K) (h : q.content = p.content) :
    q.Infers g K := by
  have hspec : q.spec? g = p.spec? g := by
    funext x
    cases x with
    | graph v => rfl
    | staged i port => rw [spec?_staged, spec?_staged, h]
  intro n hn
  rw [hspec]
  exact hp n (h ▸ hn)

theorem Infers.stage {K : Kind → Prop} {n : StagedNode Body} {given : List Spec}
    (hp : p.Infers g K) (hk : K n.op.kind) (hin : n.inputs.map (p.spec? g) = given.map some)
    (hout : g.infer n.op given = .ok n.outputs) : (p.stage n).Infers g K := by
  have hgrown {inputs : List Operand} {given : List Spec}
      (h : inputs.map (p.spec? g) = given.map some) :
      inputs.map ((p.stage n).spec? g) = given.map some := by
    rw [← h]
    refine List.map_congr_left fun x hx => ?_
    obtain ⟨s, -, hs⟩ := List.mem_map.mp (h ▸ List.mem_map_of_mem hx)
    rw [← hs, (grows_stage p n).spec g x s hs.symm]
  intro m hm
  rw [content_stage] at hm
  rcases List.mem_append.mp hm with hm | hm
  · obtain ⟨hkind, given, hin, hout⟩ := hp m hm
    exact ⟨hkind, given, hgrown hin, hout⟩
  · obtain rfl := List.mem_singleton.mp hm
    exact ⟨hk, given, hgrown hin, hout⟩

/-- What is put in the place of an output: the spec of the one and of the other. -/
def Exchanges (p : Plan Body) (g : Graph) (P : Spec → Spec → Prop) : Prop :=
  ∀ r ∈ p.replacements, ∃ new old, p.spec? g r.2 = some new ∧ g.spec? r.1 = some old ∧ P new old

theorem Exchanges.mono {P Q : Spec → Spec → Prop} (hp : p.Exchanges g P)
    (h : ∀ new old, P new old → Q new old) : p.Exchanges g Q := fun r hr => by
  obtain ⟨new, old, hnew, hold, hP⟩ := hp r hr
  exact ⟨new, old, hnew, hold, h new old hP⟩

theorem exchanges_singleton {P : Spec → Spec → Prop} {new old : Spec}
    (hp : p.replacements = [(v, x)]) (hnew : p.spec? g x = some new) (hold : g.spec? v = some old)
    (h : P new old) : p.Exchanges g P := by
  intro r hr
  obtain rfl := List.mem_singleton.mp (hp ▸ hr)
  exact ⟨new, old, hnew, hold, h⟩

theorem exchanges_make {P : Spec → Spec → Prop} {op : Operation Body} {inputs : List Operand}
    {given outputs : List Spec} {new old : Spec} {k : Nat}
    (e : empty.make g op inputs = .ok (q, k))
    (hin : inputs.map (empty.spec? g) = given.map some)
    (hout : g.infer op given = .ok (new :: outputs)) (hold : g.spec? v = some old)
    (h : P new old) (ids : List NodeId) :
    ((q.inherit ids).replace v (.staged k 0)).Exchanges g P := by
  obtain ⟨given', outputs', hgiven, hout', rfl, rfl⟩ := make_eq_ok_iff.mp e
  have hgiven := (mapM_eq_ok_iff fun _ _ => operandSpec_eq_ok_iff).mp hgiven
  obtain rfl : given' = given := List.map_injective_iff.mpr (Option.some_injective Spec)
    (hgiven.symm.trans hin)
  obtain rfl := Except.ok.inj (hout'.symm.trans hout)
  exact exchanges_singleton rfl rfl hold h

/-- The plan changes specs no further than the drift allows. -/
structure Follows (p : Plan Body) (g : Graph) (d : Drift) : Prop where
  staged : p.Infers g d.staged
  replaced : p.Exchanges g fun new old => ∀ k, d.rel k new old

end Plan

namespace Staging

variable {α γ : Type} {s : Staging α} {f : α → Staging γ} {K : Kind → Prop}

/-- Whatever a step stages is inferred. -/
def Infers (g : Graph) (K : Kind → Prop) (s : Staging α) : Prop :=
  ∀ p a q, p.Infers g K → s p = .ok (a, q) → q.Infers g K

theorem infers_pure {a : α} : Infers g K (pure a) := by
  intro p b q hp e
  obtain ⟨-, rfl⟩ := Prod.mk.inj (Except.ok.inj e)
  exact hp

theorem Infers.bind (hs : Infers g K s) (hf : ∀ a, Infers g K (f a)) : Infers g K (s >>= f) := by
  intro p b r hp e
  obtain ⟨a, q, ha, hb⟩ := bind_ok_iff.mp e
  exact hf a q b r (hs p a q hp ha) hb

theorem infers_ofAttempt {x : Attempt α} : Infers g K (ofAttempt x) := by
  intro p a q hp e
  obtain ⟨-, rfl⟩ := ofAttempt_eq_ok_iff.mp e
  exact hp

theorem infers_ofOption {o : Option α} : Infers g K (ofOption o) := infers_ofAttempt

theorem infers_check {condition : Bool} : Infers g K (check condition) := by
  intro p a q hp e
  obtain ⟨-, rfl⟩ := check_eq_ok_iff.mp e
  exact hp

theorem infers_spec : Infers g K (spec g x) := by
  intro p a q hp e
  obtain ⟨-, rfl⟩ := spec_eq_ok_iff.mp e
  exact hp

theorem infers_make {op : Operation Body} {inputs : List Operand} (hk : K op.kind) :
    Infers g K (make g op inputs) := by
  intro p k q hp e
  obtain ⟨given, outputs, hgiven, hout, rfl, -⟩ := Plan.make_eq_ok_iff.mp (make_eq_ok_iff.mp e)
  have hin := (mapM_eq_ok_iff fun _ _ => Plan.operandSpec_eq_ok_iff).mp hgiven
  exact hp.stage (n := ⟨op, inputs, outputs, "", .empty⟩) hk hin hout

theorem infers_makeValue {op : Operation Body} {inputs : List Operand} (hk : K op.kind) :
    Infers g K (makeValue g op inputs) := (infers_make hk).bind fun _ => infers_pure

theorem infers_rename {k : Nat} {name : String} : Infers g K (rename k name) :=
  fun _ _ _ hp e => hp.of_content (renamed_of_eq_ok e).content_eq

theorem infers_inherit {sources : List NodeId} : Infers g K (inherit sources) := by
  intro p u q hp e
  obtain rfl := inherit_eq_ok_iff.mp e
  exact hp.of_content rfl

theorem infers_replace : Infers g K (replace v x) := by
  intro p u q hp e
  obtain rfl := replace_eq_ok_iff.mp e
  exact hp.of_content rfl

theorem Infers.toPlan {s : Staging Unit} (hs : Infers g K s) (e : s.toPlan = .ok p) :
    p.Infers g K := hs .empty () p (Plan.infers_empty g K) (toPlan_eq_ok_iff.mp e)

end Staging

/-! ### Graphs -/

namespace Arena

variable {y : NodeId} {n : Node Body} {ids : List NodeId} {k : Nat}

/-- Every node has the outputs that inference gives on specs that its inputs may have had. -/
def Drifted (g : Graph) (d : Drift) : Prop := ∀ x n, g.bare? x = some n →
  ∃ given, List.Forall₂ (fun v s => ∃ a, g.spec? v = some a ∧ d.rel n.kind a s) n.inputs given ∧
    g.infer n.op given = .ok n.specs

/-- A graph in the course of a run. -/
structure Adrift (g : Graph) (d : Drift) : Prop where
  wellFormed : g.WellFormed
  table : g.table = .standard
  drifted : g.Drifted d

theorem Inferred.drifted (hi : g.Inferred) (h : ∀ x n, g.bare? x = some n →
    ∀ v ∈ n.inputs, ∀ s, g.spec? v = some s → d.rel n.kind s s) : g.Drifted d := by
  intro x n hn
  obtain ⟨given, hin, hout⟩ := inferred_iff.mp hi x n hn
  refine ⟨given, ?_, hout⟩
  have hsame := map_eq_map_some_iff.mp hin
  refine List.forall₂_iff_get.mpr ⟨hsame.length_eq, fun i hi hi' => ?_⟩
  have hspec := hsame.get hi hi'
  exact ⟨_, hspec, h x n hn _ (List.get_mem _ _) _ hspec⟩

theorem Adrift.infer {p : Primitive} (hg : g.Adrift d) (hn : g.node? y = some n)
    (hop : n.op = .primitive p) : ∃ given,
      List.Forall₂ (fun v s => ∃ a, g.spec? v = some a ∧ d.rel p.kind a s) n.inputs given ∧
        CapabilityTable.standard.infer (.primitive p) given = .ok n.specs := by
  obtain ⟨given, hgiven, hout⟩ := hg.drifted y n.bare (congrArg (Option.map Node.bare) hn)
  have hkind : n.bare.kind = p.kind := congrArg Operation.kind hop
  have hop : n.bare.op = .primitive p := hop
  rw [Arena.infer, hg.table, Node.specs_bare, hop] at hout
  rw [hkind] at hgiven
  exact ⟨given, hgiven, hout⟩

/-- The spec of the only input of a node, and the one that its outputs were inferred from. -/
theorem Adrift.unary {p : Primitive} (hg : g.Adrift d) (hn : g.node? y = some n)
    (hop : n.op = .primitive p) (hin : n.inputs = [v]) : ∃ a s, g.spec? v = some a ∧
      d.rel p.kind a s ∧ CapabilityTable.standard.infer (.primitive p) [s] = .ok n.specs := by
  obtain ⟨given, hgiven, hout⟩ := hg.infer hn hop
  rw [hin] at hgiven
  obtain - | ⟨⟨a, ha, hrel⟩, - | -⟩ := hgiven
  exact ⟨a, _, ha, hrel, hout⟩

theorem Drifted.of_part (hg : g.Drifted d) (hh : h.Linked) (ht : h.table = g.table)
    (hpart : ∀ x, h.contains x = true → h.bare? x = g.bare? x) : h.Drifted d := by
  intro x n hn
  obtain ⟨given, hin, hout⟩ := hg x n ((hpart x (contains_of_bare? hn)).symm.trans hn)
  refine ⟨given, ?_, by rwa [infer, ht]⟩
  refine List.forall₂_iff_get.mpr ⟨hin.length_eq, fun i hi hi' => ?_⟩
  rw [spec?_of_part hpart (hh.contains_of_input hn (List.get_mem _ _))]
  exact hin.get hi hi'

/-- The value in the place of another one: its spec is the same, or has drifted. -/
theorem Rewired.drift_redirect (hr : g.Rewired h p ids) (hp : p.Follows g d) {a : Spec}
    (hv : g.spec? v = some a) :
    ∃ b, h.spec? (p.redirect ids v) = some b ∧ (b = a ∨ ∀ k, d.rel k b a) := by
  refine redirectAll_induction (P := fun w => ∃ b, h.spec? w = some b ∧ (b = a ∨ ∀ k, d.rel k b a))
    (fun s hs => ?_) ⟨a, (hr.spec?_old (contains_of_spec? hv)).trans hv, .inl rfl⟩
  obtain ⟨t, ht, rfl⟩ := List.mem_map.mp hs
  obtain ⟨new, old, hnew, hold, hrel⟩ := hp.replaced t ht
  rintro ⟨b, hb, hba⟩
  obtain rfl : old = b := by
    rw [hr.spec?_old (contains_of_spec? hold), hold] at hb
    exact Option.some.inj hb
  refine ⟨new, hr.spec?_resolve hnew, .inr fun k => ?_⟩
  rcases hba with rfl | hba
  · exact hrel k
  · exact d.trans (hrel k) (hba k)

theorem Drifted.rewired (hg : g.Drifted d) (hr : g.Rewired h p ids) (hp : p.Follows g d) :
    h.Drifted d := by
  intro x n hn
  rcases hr.cases hn with ⟨-, m, hm, rfl⟩ | ⟨i, s, name, hs, -, rfl⟩
  · obtain ⟨given, hin, hout⟩ := hg x m hm
    refine ⟨given, List.forall₂_map_left_iff.mpr (hin.imp ?_), by rwa [infer, hr.table]⟩
    rintro v s ⟨a, ha, hrel⟩
    obtain ⟨b, hb, hba⟩ := hr.drift_redirect hp ha
    refine ⟨b, hb, ?_⟩
    rcases hba with rfl | hba
    · exact hrel
    · exact d.trans (hba _) hrel
  · have hmem : (s.op, s.inputs, s.outputs) ∈ p.content :=
      List.mem_map.mpr ⟨s, List.mem_of_getElem? hs, rfl⟩
    obtain ⟨hk, given, hin, hout⟩ := hp.staged _ hmem
    have hspecs : (s.fresh (g.mergedAnnotations p.sources)).specs = s.outputs := by
      simp [Node.specs, StagedNode.fresh, Node.fresh, Function.comp_def]
    refine ⟨given, List.forall₂_map_left_iff.mpr ?_, ?_⟩
    · exact (map_eq_map_some_iff.mp hin).imp fun y s hy => ⟨s, hr.spec?_resolve hy, d.same hk⟩
    · rw [infer, hr.table]
      exact hout.trans (congrArg Except.ok hspecs.symm)

theorem Adrift.apply (hg : g.Adrift d) (hp : p.Accepted g) (hf : p.Follows g d) :
    (g.apply p).1.Adrift d where
  wellFormed := hg.wellFormed.apply hp
  table := (table_apply hg.wellFormed hp).trans hg.table
  drifted := by
    have hremains := remains_apply hg.wellFormed hp
    have hrewired := hg.drifted.rewired (rewired_rewire hg.wellFormed hp) hf
    exact hrewired.of_part (hg.wellFormed.apply hp).linked hremains.table hremains.bare

theorem Adrift.modifyPins (hg : g.Adrift d) (hx : g.contains y = true) (f : UInt32 → UInt32) :
    (g.modifyPins y.index f).Adrift d where
  wellFormed := hg.wellFormed.modifyPins f hx
  table := hg.table
  drifted := by
    refine hg.drifted.of_part (hg.wellFormed.modifyPins f hx).linked rfl fun z _ => ?_
    rw [bare?, node?_modifyPins, bare?]

theorem Adrift.pin (hg : g.Adrift d) (e : g.pin y = .ok h) : h.Adrift d := by
  obtain ⟨⟨hx, -⟩, rfl⟩ := pin_eq_ok_iff.mp e
  exact hg.modifyPins hx _

theorem Adrift.unpin (hg : g.Adrift d) (e : g.unpin y = .ok (h, k)) : h.Adrift d := by
  obtain ⟨hx, he⟩ := unpin_eq_ok_iff.mp e
  obtain ⟨rfl, rfl⟩ := Prod.mk.inj he
  have hpins := hg.modifyPins hx dropPin
  have hreleases := releases_release (g.modifyPins y.index dropPin) y
  have hwf := hreleases.wellFormed hpins.wellFormed
  have hremains := hreleases.remains hpins.wellFormed
  exact ⟨hwf, hremains.table.trans hpins.table,
    hpins.drifted.of_part hwf.linked hremains.table hremains.bare⟩

end Arena

end TensorGraph
