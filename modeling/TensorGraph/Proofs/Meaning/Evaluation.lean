import TensorGraph.Proofs.Inference.Folding
import TensorGraph.Proofs.Inference.Typing
import TensorGraph.Proofs.Meaning.Rewriting

/-! # Evaluation

Constants are known, and what can be folded is known where the inputs are. A rewrite may make more
values known. What it must not do is to lose a value or to change one, and for that it is enough
that some grounded assignment of values survives.
-/

namespace TensorGraph

variable {β : Type} {t u : Tensor} {values : List (Option Tensor)} {port : Nat}

/-- What a primitive operation makes of its inputs: a constant is known, and what is folded from
inputs that are all known. -/
def Primitive.compute : Primitive → Meaning (Option Tensor)
  | constant value, _, _ => some value
  | p, values, _ => do p.fold? (← values.mapM id)

def Operation.compute : Operation β → Meaning (Option Tensor) :=
  Operation.meaning Primitive.compute fun _ _ _ => none

theorem forall₂_of_map_eq {α γ δ : Type} {R : δ → γ → Prop} {f : α → Option γ} {k : α → δ}
    {l : List α} {ys : List γ} (h : l.map f = ys.map some)
    (hR : ∀ x ∈ l, ∀ y, f x = some y → R (k x) y) : List.Forall₂ R (l.map k) ys := by
  induction l generalizing ys with
  | nil =>
    obtain rfl := List.map_eq_nil_iff.mp h.symm
    exact .nil
  | cons x l ih =>
    obtain ⟨y, ys, rfl, hy, hys⟩ := List.map_eq_cons_iff.mp h.symm
    obtain ⟨hx, hl⟩ := List.forall_mem_cons.mp hR
    exact .cons (hx y hy.symm) (ih hys.symm hl)

namespace Operation

variable {op : Operation β}

theorem compute_eq_some_iff : op.compute values port = some t ↔ op = .primitive (.constant t) ∨
    ∃ p operands, op = .primitive p ∧ values = operands.map some ∧ p.fold? operands = some t := by
  cases op with
  | subgraph body => simp [compute, meaning]
  | primitive p =>
    have hmapM (operands : List Tensor) :
        values.mapM id = some operands ↔ values = operands.map some := by
      rw [mapM_eq_some_iff, List.map_id]
    simp only [compute, meaning, primitive.injEq, exists_and_left]
    unfold Primitive.compute
    split
    · rename_i value
      simp [Primitive.fold?]
    · rename_i hne
      simp only [bind, Option.bind_eq_some_iff, hmapM]
      constructor
      · rintro ⟨operands, hvalues, hfold⟩
        exact .inr ⟨p, rfl, operands, hvalues, hfold⟩
      · rintro (rfl | ⟨_, rfl, operands, hvalues, hfold⟩)
        · exact absurd rfl (hne t)
        · exact ⟨operands, hvalues, hfold⟩

theorem exists_parameter (h : op.kind = .parameter) : ∃ s, op = .primitive (.parameter s) := by
  cases op with
  | subgraph body => cases h
  | primitive p =>
    cases p with
    | parameter s => exact ⟨s, rfl⟩
    | _ => cases h

theorem compute_mono {α : Type} {inputs : List α} {σ τ : α → Option Tensor}
    (h : ∀ x ∈ inputs, ∀ u, σ x = some u → τ x = some u)
    (e : op.compute (inputs.map σ) port = some t) : op.compute (inputs.map τ) port = some t := by
  rcases compute_eq_some_iff.mp e with rfl | ⟨p, operands, rfl, hvalues, hfold⟩
  · exact compute_eq_some_iff.mpr (.inl rfl)
  · have hsame : inputs.map τ = inputs.map σ := by
      refine List.map_congr_left fun x hx => ?_
      obtain ⟨u, -, hu⟩ := List.mem_map.mp (hvalues ▸ List.mem_map_of_mem hx)
      rw [h x hx u hu.symm, ← hu]
    exact compute_eq_some_iff.mpr (.inr ⟨p, operands, rfl, hsame.trans hvalues, hfold⟩)

/-- What is computed from values of the given specs is of the spec that inference gives. -/
theorem refines_of_compute {op : Operation Body} {given outputs : List Spec}
    (e : op.compute values port = some t)
    (hvalues : List.Forall₂ (fun x s => ∀ u, x = some u → u.spec.Refines s) values given)
    (hinfer : CapabilityTable.standard.infer (op.map Described.describe) given = .ok outputs) :
    ∀ s ∈ outputs, t.spec.Refines s := by
  rcases compute_eq_some_iff.mp e with rfl | ⟨p, operands, rfl, rfl, hfold⟩
  · obtain ⟨-, hrule⟩ := infer_standard_eq_ok hinfer
    obtain rfl := Except.ok.inj hrule
    exact List.forall_mem_singleton.mpr .rfl
  · have hgiven : List.Forall₂ Spec.Refines (operands.map Tensor.spec) given := by
      rw [List.forall₂_map_left_iff] at hvalues ⊢
      exact hvalues.imp fun _ _ h => h _ rfl
    exact Primitive.refines_of_fold? hfold hgiven hinfer

end Operation

/-! ### Grounded values -/

namespace Arena

variable {a b : Arena β} {g h : Graph} {env : NodeId → Tensor} {σ τ : Value → Option Tensor}
variable {v : Value} {x : NodeId}

/-- Every value that is given agrees with what produces it, and with what is recorded of it. -/
structure Grounded (a : Arena β) (env : NodeId → Tensor) (σ : Value → Option Tensor) : Prop where
  parameter : ∀ x n port t, a.bare? x = some n → n.kind = .parameter →
    σ ⟨x, port⟩ = some t → t = env x
  computed : ∀ x n port t, a.bare? x = some n → n.kind ≠ .parameter →
    σ ⟨x, port⟩ = some t → n.op.compute (n.inputs.map σ) port = some t
  refines : ∀ v s t, a.spec? v = some s → σ v = some t → t.spec.Refines s

theorem Grounded.of_part (hσ : a.Grounded env σ)
    (hb : ∀ x, b.contains x = true → b.bare? x = a.bare? x) : b.Grounded env σ := by
  have hbare {x : NodeId} {n : Node β} (hn : b.bare? x = some n) : a.bare? x = some n := by
    rw [← hb x (contains_of_bare? hn), hn]
  refine ⟨fun x n port t hn => hσ.parameter x n port t (hbare hn),
    fun x n port t hn => hσ.computed x n port t (hbare hn), fun v s t hs => hσ.refines v s t ?_⟩
  rw [spec?_eq_bare] at hs ⊢
  obtain ⟨n, hn, hport⟩ := Option.bind_eq_some_iff.mp hs
  exact Option.bind_eq_some_iff.mpr ⟨n, hbare hn, hport⟩

/-- The assignment gives every parameter a tensor that refines its spec. -/
def Admits (a : Arena β) (env : NodeId → Tensor) : Prop :=
  ∀ x n s, a.node? x = some n → n.op = .primitive (.parameter s) → (env x).spec.Refines s

/-- A grounded value is what evaluation gives. -/
theorem Grounded.valueOf (hσ : a.Grounded env σ) (ha : a.WellFormed)
    (hv : a.contains v.node = true) (ht : σ v = some t) :
    a.valueOf Operation.compute (fun x => some (env x)) v = some t := by
  have hvaluation := valuation_iff_bare.mp (ha.valuation Operation.compute fun x => some (env x))
  obtain ⟨rank, hrank, -⟩ := ha.acyclic.exists_rank ha.linked
  induction hr : rank v.node using Nat.strong_induction_on generalizing v t with
  | _ r ih =>
    rw [contains_eq_bare] at hv
    obtain ⟨n, hn⟩ := Option.isSome_iff_exists.mp hv
    refine (hvaluation v.node n hn v.port).trans ?_
    split
    · rename_i hkind
      rw [hσ.parameter v.node n v.port t hn hkind ht]
    · rename_i hkind
      have hcompute := hσ.computed v.node n v.port t hn hkind ht
      refine Operation.compute_mono (fun w hw u hu => ?_) hcompute
      have hread : a.Reads v.node w.node := by
        obtain ⟨m, hm, rfl⟩ := Option.map_eq_some_iff.mp hn
        exact reads_of_input hm hw
      exact ih _ (hr ▸ hrank _ _ hread) (ha.linked.contains_of_reads hread) hu rfl

theorem grounded_valueOf (hg : g.WellFormed) (htable : g.table = .standard) (hi : g.Inferred)
    (henv : g.Admits env) :
    g.Grounded env (g.valueOf Operation.compute fun x => some (env x)) := by
  have hvaluation := hg.valuation Operation.compute fun x => some (env x)
  obtain ⟨rank, hrank, -⟩ := hg.acyclic.exists_rank hg.linked
  refine ⟨fun x m port t hm hkind ht => ?_, fun x m port t hm hkind ht => ?_, fun v s t hs ht => ?_⟩
  · rw [valuation_iff_bare.mp hvaluation x m hm port, if_pos hkind] at ht
    exact (Option.some.inj ht).symm
  · rwa [valuation_iff_bare.mp hvaluation x m hm port, if_neg hkind] at ht
  · induction hr : rank v.node using Nat.strong_induction_on generalizing v s t with
    | _ r ih =>
      obtain ⟨o, ho, rfl⟩ := Option.map_eq_some_iff.mp hs
      obtain ⟨n, hn, hport⟩ := Option.bind_eq_some_iff.mp ho
      obtain ⟨given, hgiven, hinfer⟩ := hi.exists_given htable hn
      have hmem : o.spec ∈ n.specs := List.mem_map_of_mem (List.mem_of_getElem? hport)
      rw [hvaluation v.node n hn v.port] at ht
      split at ht
      · rename_i hkind
        obtain rfl := Option.some.inj ht
        obtain ⟨s, hop⟩ := n.op.exists_parameter hkind
        rw [hop] at hinfer
        have hspecs : [s] = n.specs := Except.ok.inj (Operation.infer_standard_eq_ok hinfer).2
        rw [← hspecs, List.mem_singleton] at hmem
        exact hmem ▸ henv v.node n s hn hop
      · refine Operation.refines_of_compute ht ?_ hinfer _ hmem
        refine forall₂_of_map_eq hgiven fun w hw s hs u hu => ?_
        exact ih _ (hr ▸ hrank _ _ (reads_of_input hn hw)) w s u hs hu rfl

end Arena

/-! ### Rewrites -/

/-- The values of the operands of a plan: those of the graph as they were, and such as the staged
nodes compute. No replacement loses a value or changes one. -/
structure Plan.Supports (p : Plan β) (σ : Value → Option Tensor) (ω : Operand → Option Tensor) :
    Prop where
  graph : ∀ v, ω (.graph v) = σ v
  staged : ∀ i n port t, p.staged[i]? = some n → ω (.staged i port) = some t →
    n.op.kind ≠ .parameter ∧ n.op.compute (n.inputs.map ω) port = some t ∧
      ∀ s, n.outputs[port]? = some s → t.spec.Refines s
  replacements : ∀ r ∈ p.replacements, ∀ t, σ r.1 = some t → ω r.2 = some t

namespace Arena

variable {a b : Arena β} {env : NodeId → Tensor} {σ : Value → Option Tensor}
variable {ω : Operand → Option Tensor} {p : Plan β} {ids : List NodeId} {v : Value} {x : NodeId}

/-- The values of a rewired graph: the staged nodes have those of their operands. -/
def extended (ids : List NodeId) (σ : Value → Option Tensor) (ω : Operand → Option Tensor)
    (v : Value) : Option Tensor :=
  if v.node ∈ ids then ω (.staged (ids.idxOf v.node) v.port) else σ v

namespace Rewired

variable (hr : a.Rewired b p ids)
include hr

theorem extended_old (hv : a.contains v.node = true) : extended ids σ ω v = σ v :=
  if_neg fun hm => hr.fresh _ hm hv

theorem extended_new {i : Nat} (hid : ids[i]? = some x) (port : Nat) :
    extended ids σ ω ⟨x, port⟩ = ω (.staged i port) := by
  obtain ⟨hi, rfl⟩ := List.getElem?_eq_some_iff.mp hid
  rw [extended, if_pos (List.getElem_mem hi), hr.nodup.idxOf_getElem]

theorem extended_resolve (hω : p.Supports σ ω) {y : Operand} (hy : (p.spec? a y).isSome = true) :
    extended ids σ ω (y.resolve ids) = ω y := by
  cases y with
  | graph v =>
    have hv : a.contains v.node = true := contains_of_hasOutput (hasOutput_eq_spec?.trans hy)
    exact (hr.extended_old hv).trans (hω.graph v).symm
  | staged i port =>
    obtain ⟨s, hs⟩ := Option.isSome_iff_exists.mp hy
    obtain ⟨n, hn, -⟩ := Option.bind_eq_some_iff.mp hs
    have hlt : i < ids.length := hr.length ▸ (List.getElem?_eq_some_iff.mp hn).1
    have hid := List.getElem?_eq_getElem hlt
    rw [resolve_staged hid]
    exact hr.extended_new hid port

theorem extended_redirect (hp : p.Accepted a) (hω : p.Supports σ ω) {t : Tensor}
    (hv : a.contains v.node = true) (ht : σ v = some t) :
    extended ids σ ω (p.redirect ids v) = some t := by
  refine redirectAll_induction (P := fun w => extended ids σ ω w = some t) (fun r hmem ht => ?_)
    ((hr.extended_old hv).trans ht)
  obtain ⟨s, hs, rfl⟩ := List.mem_map.mp hmem
  obtain ⟨-, old, new, hold, hnew, -⟩ := hp.replacements s hs
  rw [hr.extended_old (contains_of_spec? hold)] at ht
  rw [hr.extended_resolve hω (Option.isSome_of_eq_some hnew)]
  exact hω.replacements s hs t ht

theorem grounded (ha : a.Linked) (hp : p.Accepted a) (hσ : a.Grounded env σ)
    (hω : p.Supports σ ω) : b.Grounded env (extended ids σ ω) := by
  refine ⟨fun x n port t hn hkind ht => ?_, fun x n port t hn hkind ht => ?_, fun v s t hs ht => ?_⟩
  · rcases hr.cases hn with ⟨-, m, hm, rfl⟩ | ⟨i, s, name, hs, hid, rfl⟩
    · rw [hr.extended_old (contains_of_bare? hm)] at ht
      exact hσ.parameter x m port t hm hkind ht
    · rw [hr.extended_new hid] at ht
      exact absurd hkind (hω.staged i s port t hs ht).1
  · rcases hr.cases hn with ⟨-, m, hm, rfl⟩ | ⟨i, s, name, hs, hid, rfl⟩
    · rw [hr.extended_old (contains_of_bare? hm)] at ht
      have hcompute := hσ.computed x m port t hm hkind ht
      rw [List.map_map]
      refine Operation.compute_mono (fun w hw u hu => ?_) hcompute
      exact hr.extended_redirect hp hω (ha.contains_of_input hm hw) hu
    · rw [hr.extended_new hid] at ht
      obtain ⟨-, hcompute, -⟩ := hω.staged i s port t hs ht
      rw [List.map_map]
      refine Operation.compute_mono (fun y hy u hu => ?_) hcompute
      exact (hr.extended_resolve hω (hp.operands i s hs y hy).isSome_spec?).trans hu
  · rw [spec?_eq_bare] at hs
    obtain ⟨n, hn, hport⟩ := Option.bind_eq_some_iff.mp hs
    rcases hr.cases hn with ⟨-, m, hm, rfl⟩ | ⟨i, s, name, hs', hid, rfl⟩
    · rw [hr.extended_old (contains_of_bare? hm)] at ht
      refine hσ.refines v s t ?_ ht
      rw [spec?_eq_bare, hm]
      exact hport
    · have ht : ω (.staged i v.port) = some t := (hr.extended_new hid v.port).symm.trans ht
      obtain ⟨-, -, hrefines⟩ := hω.staged i s v.port t hs' ht
      refine hrefines _ ?_
      simpa [StagedNode.fresh, Node.fresh] using hport

end Rewired

end Arena

end TensorGraph
