import TensorGraph.Proofs.Rewrite.Drafting

/-! # Readings of plans

A reading says what the operands of a plan stand for, be it a spec or a value, and how operations
act on that. A rewrite is followed step by step, from what is known of some operands to what is
then known of the ones it stages.
-/

namespace TensorGraph

variable {D : Type} {g : Graph} {p q : Plan Body} {x y : Operand} {d : D}

theorem getElem?_of_prefix {α : Type} {l l' : List α} {a : α} {i : Nat} (h : l <+: l')
    (ha : l[i]? = some a) : l'[i]? = some a := by
  obtain ⟨rest, rfl⟩ := h
  rwa [List.getElem?_append_left (List.getElem?_eq_some_iff.mp ha).1]

theorem map_eq_map_some_iff {α γ : Type} {f : α → Option γ} {l : List α} {ys : List γ} :
    l.map f = ys.map some ↔ List.Forall₂ (fun x y => f x = some y) l ys := by
  rw [← List.forall₂_eq_eq_eq, List.forall₂_map_left_iff, List.forall₂_map_right_iff]

namespace Plan

def content (p : Plan Body) : List (Operation Body × List Operand × List Spec) :=
  p.staged.map fun n => (n.op, n.inputs, n.outputs)

theorem content_stage (p : Plan Body) (n : StagedNode Body) :
    (p.stage n).content = p.content ++ [(n.op, n.inputs, n.outputs)] := by
  simp [content, stage]

theorem spec?_staged (i port : Nat) :
    p.spec? g (.staged i port) = p.content[i]?.bind fun n => n.2.2[port]? := by
  simp only [spec?, content, List.getElem?_map]
  cases p.staged[i]? <;> rfl

/-! ### Values -/

section Value

variable (run : Primitive → List D → Option (List D)) (σ : Value → Option D)

/-- What an operand stands for when the staged nodes have these outputs. -/
def read (outs : List (Option (List D))) : Operand → Option D
  | .graph v => σ v
  | .staged i port => do (← (← outs[i]?))[port]?

/-- What an operation makes of its inputs. Nothing is said of a subgraph. -/
def output (outs : List (Option (List D))) : Operation Body → List Operand → Option (List D)
  | .primitive s, inputs => do run s (← inputs.mapM (read σ outs))
  | .subgraph _, _ => none

def outputs (nodes : List (Operation Body × List Operand × List Spec)) :
    List (Option (List D)) :=
  nodes.foldl (fun outs n => outs ++ [output run σ outs n.1 n.2.1]) []

def value? (p : Plan Body) (x : Operand) : Option D := read σ (outputs run σ p.content) x

variable {run σ} {nodes rest : List (Operation Body × List Operand × List Spec)}

theorem outputs_concat (n : Operation Body × List Operand × List Spec) :
    outputs run σ (nodes ++ [n]) =
      outputs run σ nodes ++ [output run σ (outputs run σ nodes) n.1 n.2.1] := by
  simp [outputs]

theorem length_outputs : (outputs run σ nodes).length = nodes.length := by
  induction nodes using List.reverseRecOn with
  | nil => rfl
  | append_singleton nodes n ih => simp [outputs_concat, ih]

theorem outputs_prefix (nodes rest : List (Operation Body × List Operand × List Spec)) :
    outputs run σ nodes <+: outputs run σ (nodes ++ rest) := by
  induction rest using List.reverseRecOn with
  | nil => simp
  | append_singleton rest n ih =>
    rw [← List.append_assoc, outputs_concat]
    exact ih.trans (List.prefix_append _ _)

theorem read_of_prefix {outs outs' : List (Option (List D))} (h : outs <+: outs')
    (hx : read σ outs x = some d) : read σ outs' x = some d := by
  cases x with
  | graph v => exact hx
  | staged i port =>
    obtain ⟨o, ho, hx⟩ := Option.bind_eq_some_iff.mp hx
    exact Option.bind_eq_some_iff.mpr ⟨o, getElem?_of_prefix h ho, hx⟩

end Value

end Plan

theorem Plan.Renamed.content_eq (h : p.Renamed q) : q.content = p.content := by
  refine List.ext_getElem? fun i => ?_
  obtain ⟨name, hname⟩ := h.staged i
  rw [content, List.getElem?_map, hname, Option.map_map, content, List.getElem?_map]
  rfl

/-- Nodes of these kinds have the values that their operations make of those of their inputs. -/
def Arena.Computes (g : Graph) (run : Primitive → List D → Option (List D)) (kinds : List Kind)
    (σ : Value → Option D) : Prop :=
  ∀ x n s, g.node? x = some n → n.op = .primitive s → s.kind ∈ kinds → ∀ port,
    σ (x.output port) = do (← run s (← n.inputs.mapM σ))[port]?

theorem Arena.Computes.exists_inputs {run : Primitive → List D → Option (List D)}
    {kinds : List Kind} {σ : Value → Option D} (h : g.Computes run kinds σ) {v : Value}
    {n : Node Body} {s : Primitive} (hn : g.node? v.node = some n) (hop : n.op = .primitive s)
    (hs : s.kind ∈ kinds) (hd : σ v = some d) : ∃ ds outs,
      n.inputs.map σ = ds.map some ∧ run s ds = some outs ∧ outs[v.port]? = some d := by
  have hv := (h v.node n s hn hop hs v.port).symm.trans hd
  obtain ⟨ds, hds, hv⟩ := Option.bind_eq_some_iff.mp hv
  obtain ⟨outs, houts, hport⟩ := Option.bind_eq_some_iff.mp hv
  exact ⟨ds, outs, mapM_eq_some_iff.mp hds, houts, hport⟩

/-- The values listed for the outputs of each slot are those that the operations make. -/
def Arena.computed [DecidableEq D] (g : Graph) (run : Primitive → List D → Option (List D))
    (kinds : List Kind) (values : Nat → List D) : Bool :=
  g.nodeIds.all fun x => (g.node? x).all fun n => match n.op with
    | .primitive s => s.kind ∉ kinds ||
      (n.inputs.mapM fun v => (values v.node.index)[v.port]?).bind (run s) == some (values x.index)
    | .subgraph _ => true

theorem Arena.computes_of_computed [DecidableEq D] {run : Primitive → List D → Option (List D)}
    {kinds : List Kind} {values : Nat → List D} (h : g.computed run kinds values = true) :
    g.Computes run kinds fun v => (values v.node.index)[v.port]? := by
  intro x n s hn hop hs port
  have hx := List.all_eq_true.mp h x (mem_nodeIds_iff.mpr ⟨n, hn⟩)
  simp only [hn, Option.all_some, hop, hs, not_true, decide_false, Bool.false_or,
    beq_iff_eq] at hx
  obtain ⟨ds, hds, hrun⟩ := Option.bind_eq_some_iff.mp hx
  simp [hds, hrun, NodeId.output]

/-! ### Readings -/

/-- What operands stand for. An operation acts on what its inputs stand for, and nothing of it is
lost when more is staged. -/
structure Reading (g : Graph) (D : Type) where
  run : Primitive → List D → Option (List D)
  Reads : Plan Body → Operand → D → Prop
  grow : ∀ {p q : Plan Body} {x d}, p.content <+: q.content → Reads p x d → Reads q x d
  make : ∀ {p q : Plan Body} {s : Primitive} {inputs k ds outs},
    p.make g s inputs = .ok (q, k) → List.Forall₂ (Reads p) inputs ds → run s ds = some outs →
      ∀ port d, outs[port]? = some d → Reads q (.staged k port) d

namespace Reading

def specs (ht : g.table = .standard) : Reading g Spec where
  run s given := (CapabilityTable.standard.infer (.primitive s) given).toOption
  Reads p x s := p.spec? g x = some s
  grow {p q x s} h hs := by
    cases x with
    | graph v => exact hs
    | staged i port =>
      rw [Plan.spec?_staged] at hs ⊢
      obtain ⟨n, hn, hs⟩ := Option.bind_eq_some_iff.mp hs
      exact Option.bind_eq_some_iff.mpr ⟨n, getElem?_of_prefix h hn, hs⟩
  make {p q s inputs k given outs} e hin hrun port d hd := by
    obtain ⟨given', outputs, hgiven, hinfer, rfl, rfl⟩ := Plan.make_eq_ok_iff.mp e
    have hgiven := (mapM_eq_ok_iff fun _ _ => Plan.operandSpec_eq_ok_iff).mp hgiven
    obtain rfl : given' = given := List.map_injective_iff.mpr (Option.some_injective Spec)
      (hgiven.symm.trans (map_eq_map_some_iff.mpr hin))
    rw [Arena.infer, ht] at hinfer
    have hinfer : CapabilityTable.standard.infer (.primitive s) given' = .ok outputs := hinfer
    rw [hinfer] at hrun
    obtain rfl := Option.some.inj hrun
    simp [Plan.spec?, hd]

/-- The values that are computed from those of the graph. -/
def values (g : Graph) (run : Primitive → List D → Option (List D)) (σ : Value → Option D) :
    Reading g D where
  run := run
  Reads p x d := p.value? run σ x = some d
  grow {p q x d} h hd := by
    obtain ⟨rest, hrest⟩ := h
    rw [Plan.value?, ← hrest]
    exact Plan.read_of_prefix (Plan.outputs_prefix _ _) hd
  make {p q s inputs k ds outs} e hin hrun port d hd := by
    obtain ⟨given, outputs, -, -, rfl, rfl⟩ := Plan.make_eq_ok_iff.mp e
    have hin : inputs.mapM (Plan.read σ (Plan.outputs run σ p.content)) = some ds :=
      mapM_eq_some_iff.mpr (map_eq_map_some_iff.mpr hin)
    have hlen : p.staged.length = (Plan.outputs run σ p.content).length := by
      simp [Plan.length_outputs, Plan.content]
    change Plan.read σ (Plan.outputs run σ (p.stage ⟨s, inputs, outputs, "", .empty⟩).content)
      (.staged p.staged.length port) = some d
    rw [Plan.content_stage, Plan.outputs_concat, Plan.read, hlen, List.getElem?_concat_length]
    simp [Plan.output, hin, hrun, hd]

/-! ### Steps that stage -/

abbrev Facts (D : Type) := List (Operand × D)

variable {R : Reading g D} {Γ Γ' : Facts D}

def Holds (R : Reading g D) (p : Plan Body) (Γ : Facts D) : Prop := ∀ f ∈ Γ, R.Reads p f.1 f.2

theorem Holds.mono (h : R.Holds p Γ) (hsub : Γ' ⊆ Γ) : R.Holds p Γ' := fun f hf => h f (hsub hf)

theorem Holds.grow (h : R.Holds p Γ) (hpq : p.content <+: q.content) : R.Holds q Γ :=
  fun f hf => R.grow hpq (h f hf)

section Steps

variable {α γ : Type} {s : Staging α} {f : α → Staging γ} {Q : α → Facts D} {Q' : γ → Facts D}

/-- From plans in which the facts hold the steps lead to plans in which they still do, and others
for what is staged. Nothing is replaced meanwhile. -/
def Stages (R : Reading g D) (Γ : Facts D) (s : Staging α) (Q : α → Facts D) : Prop :=
  ∀ p a q, R.Holds p Γ → s p = .ok (a, q) →
    R.Holds q (Q a ++ Γ) ∧ q.replacements = p.replacements

theorem stages_pure {a : α} (h : Q a ⊆ Γ) : R.Stages Γ (pure a) Q := by
  intro p b q hp e
  obtain ⟨rfl, rfl⟩ := Prod.mk.inj (Except.ok.inj e)
  exact ⟨hp.mono (List.append_subset.mpr ⟨h, List.Subset.refl _⟩), rfl⟩

theorem Stages.bind (hs : R.Stages Γ s Q) (hf : ∀ a, R.Stages (Q a ++ Γ) (f a) Q') :
    R.Stages Γ (s >>= f) Q' := by
  intro p b r hp e
  obtain ⟨a, q, ha, hb⟩ := Staging.bind_ok_iff.mp e
  obtain ⟨hq, hreplacements⟩ := hs p a q hp ha
  obtain ⟨hr, hreplacements'⟩ := hf a q b r hq hb
  refine ⟨hr.mono ?_, hreplacements'.trans hreplacements⟩
  exact List.append_subset.mpr ⟨List.subset_append_left _ _,
    List.Subset.trans (List.subset_append_right _ _) (List.subset_append_right _ _)⟩

/-- A staged node, from what its inputs stand for. -/
theorem stages_make {o : Primitive} {ds : List D} (inputs : Facts D) (hin : inputs ⊆ Γ)
    (hrun : R.run o (inputs.map Prod.snd) = some (d :: ds)) :
    R.Stages Γ (Staging.make g o (inputs.map Prod.fst)) fun k => [(.staged k 0, d)] := by
  intro p k q hp e
  have e := Staging.make_eq_ok_iff.mp e
  obtain ⟨given, outputs, -, -, rfl, rfl⟩ := Plan.make_eq_ok_iff.mp e
  have hreads : List.Forall₂ (R.Reads p) (inputs.map Prod.fst) (inputs.map Prod.snd) :=
    List.forall₂_map_left_iff.mpr (List.forall₂_map_right_iff.mpr
      (List.forall₂_same.mpr fun f hf => hp f (hin hf)))
  have hprefix : p.content <+: (p.stage ⟨o, inputs.map Prod.fst, outputs, "", .empty⟩).content :=
    Plan.content_stage p _ ▸ List.prefix_append _ _
  refine ⟨List.forall_mem_cons.mpr ⟨R.make e hreads hrun 0 d rfl, hp.grow hprefix⟩, rfl⟩

theorem stages_makeValue {o : Primitive} {ds : List D} (inputs : Facts D) (hin : inputs ⊆ Γ)
    (hrun : R.run o (inputs.map Prod.snd) = some (d :: ds)) :
    R.Stages Γ (Staging.makeValue g o (inputs.map Prod.fst)) fun x => [(x, d)] :=
  (stages_make inputs hin hrun).bind fun _ => stages_pure (List.subset_append_left _ _)

theorem stages_rename {k : Nat} {name : String} :
    R.Stages Γ (Staging.rename k name) fun _ => [] := by
  intro p u q hp e
  have h := Staging.renamed_of_eq_ok e
  exact ⟨hp.grow (h.content_eq ▸ List.prefix_rfl), h.replacements⟩

end Steps

end Reading

end TensorGraph
