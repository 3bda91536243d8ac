import TensorGraph.Proofs.Rewrite.Reading

/-! # Watched nodes

The staged nodes of some kinds, each with what its inputs stand for. What a rewrite stages of these
kinds is listed in order along its steps, also where some operations have no result.
-/

namespace TensorGraph

variable {D : Type} {g : Graph} {kinds : List Kind} {p q : Plan Body} {x : Operand}

namespace Plan

def watched (kinds : List Kind) (p : Plan Body) : List (Primitive × List Operand) :=
  p.content.filterMap fun n => match n.1 with
    | .primitive s => if s.kind ∈ kinds then some (s, n.2.1) else none
    | .subgraph _ => none

theorem watched_of_content (h : q.content = p.content) : q.watched kinds = p.watched kinds :=
  congrArg (List.filterMap _) h

theorem watched_stage (p : Plan Body) (s : Primitive) (inputs : List Operand)
    (outputs : List Spec) : (p.stage ⟨.primitive s, inputs, outputs, "", .empty⟩).watched kinds =
      p.watched kinds ++ if s.kind ∈ kinds then [(s, inputs)] else [] := by
  rw [watched, content_stage, List.filterMap_append]
  refine congrArg (p.watched kinds ++ ·) ?_
  by_cases hs : s.kind ∈ kinds
  · simp [hs]
  · simp [hs]

end Plan

/-- The steps stage nothing of the kinds, and replace nothing. -/
def Staging.Quiet {α : Type} (kinds : List Kind) (s : Staging α) : Prop :=
  ∀ p a q, s p = .ok (a, q) → p.content <+: q.content ∧ q.replacements = p.replacements ∧
    q.watched kinds = p.watched kinds

namespace Staging

variable {α γ : Type} {s : Staging α} {f : α → Staging γ} {o : Primitive} {inputs : List Operand}

theorem quiet_pure (a : α) : (pure a : Staging α).Quiet kinds := by
  intro p b q e
  obtain ⟨rfl, rfl⟩ := Prod.mk.inj (Except.ok.inj e)
  exact ⟨List.prefix_rfl, rfl, rfl⟩

theorem Quiet.bind (hs : s.Quiet kinds) (hf : ∀ a, (f a).Quiet kinds) :
    (s >>= f).Quiet kinds := by
  intro p b r e
  obtain ⟨a, q, ha, hb⟩ := bind_ok_iff.mp e
  obtain ⟨hq, hreplacements, hwatched⟩ := hs p a q ha
  obtain ⟨hr, hreplacements', hwatched'⟩ := hf a q b r hb
  exact ⟨hq.trans hr, hreplacements'.trans hreplacements, hwatched'.trans hwatched⟩

theorem watched_of_make (kinds : List Kind) {k : Nat} (e : make g o inputs p = .ok (k, q)) :
    p.content <+: q.content ∧ q.replacements = p.replacements ∧
      q.watched kinds = p.watched kinds ++ if o.kind ∈ kinds then [(o, inputs)] else [] := by
  obtain ⟨given, outputs, -, -, rfl, rfl⟩ := Plan.make_eq_ok_iff.mp (make_eq_ok_iff.mp e)
  refine ⟨?_, rfl, Plan.watched_stage p o inputs outputs⟩
  exact Plan.content_stage p ⟨.primitive o, inputs, outputs, "", .empty⟩ ▸ List.prefix_append _ _

theorem quiet_make (h : o.kind ∉ kinds) : (make g o inputs).Quiet kinds := by
  intro p k q e
  obtain ⟨hpq, hreplacements, hwatched⟩ := watched_of_make kinds e
  rw [if_neg h, List.append_nil] at hwatched
  exact ⟨hpq, hreplacements, hwatched⟩

theorem quiet_makeValue (h : o.kind ∉ kinds) : (makeValue g o inputs).Quiet kinds :=
  (quiet_make h).bind fun _ => quiet_pure _

end Staging

namespace Reading

/-! ### Steps that stage watched nodes -/

variable {R : Reading g D} {Γ : Facts D} {L L' : List (Primitive × List D)}

def Lists (R : Reading g D) (p : Plan Body) :
    List (Primitive × List Operand) → List (Primitive × List D) → Prop :=
  List.Forall₂ fun n l => n.1 = l.1 ∧ List.Forall₂ (R.Reads p) n.2 l.2

theorem Lists.grow {nodes : List (Primitive × List Operand)} (h : R.Lists p nodes L)
    (hpq : p.content <+: q.content) : R.Lists q nodes L :=
  h.imp fun _ _ hn => ⟨hn.1, hn.2.imp fun _ _ => R.grow hpq⟩

section Steps

variable {α γ : Type} {s : Staging α} {f : α → Staging γ} {Q : α → Facts D} {Q' : γ → Facts D}
variable {o : Primitive}

/-- The steps stage as `Stages` says, and what they stage of the kinds is listed. -/
structure Logs (R : Reading g D) (kinds : List Kind) (Γ : Facts D) (s : Staging α)
    (Q : α → Facts D) (L : List (Primitive × List D)) : Prop where
  stages : R.Stages Γ s Q
  lists : ∀ p a q, R.Holds p Γ → s p = .ok (a, q) → p.content <+: q.content ∧
    ∃ nodes, q.watched kinds = p.watched kinds ++ nodes ∧ R.Lists q nodes L

theorem stages_of_quiet (hs : s.Quiet kinds) : R.Stages Γ s fun _ => [] := by
  intro p a q hp e
  obtain ⟨hpq, hreplacements, -⟩ := hs p a q e
  exact ⟨hp.grow hpq, hreplacements⟩

theorem Logs.of_quiet (h : R.Stages Γ s Q) (hs : s.Quiet kinds) : R.Logs kinds Γ s Q [] := by
  refine ⟨h, fun p a q _ e => ?_⟩
  obtain ⟨hpq, -, hwatched⟩ := hs p a q e
  exact ⟨hpq, [], hwatched.trans (List.append_nil _).symm, .nil⟩

theorem Logs.bind (hs : R.Logs kinds Γ s Q L) (hf : ∀ a, R.Logs kinds (Q a ++ Γ) (f a) Q' L') :
    R.Logs kinds Γ (s >>= f) Q' (L ++ L') := by
  refine ⟨hs.stages.bind fun a => (hf a).stages, fun p b r hp e => ?_⟩
  obtain ⟨a, q, ha, hb⟩ := Staging.bind_ok_iff.mp e
  have hq := (hs.stages p a q hp ha).1
  obtain ⟨hpq, nodes, hnodes, hlists⟩ := hs.lists p a q hp ha
  obtain ⟨hqr, nodes', hnodes', hlists'⟩ := (hf a).lists q b r hq hb
  refine ⟨hpq.trans hqr, nodes ++ nodes', ?_, ?_⟩
  · rw [hnodes', hnodes, List.append_assoc]
  · exact List.rel_append (hlists.grow hqr) hlists'

theorem Logs.quiet_bind (h : R.Stages Γ s Q) (hs : s.Quiet kinds)
    (hf : ∀ a, R.Logs kinds (Q a ++ Γ) (f a) Q' L) : R.Logs kinds Γ (s >>= f) Q' L :=
  (Logs.of_quiet h hs).bind hf

theorem logs_pure {a : α} (h : Q a ⊆ Γ) : R.Logs kinds Γ (pure a) Q [] :=
  .of_quiet (stages_pure h) (Staging.quiet_pure a)

theorem logs_make {Q : Nat → Facts D} (inputs : Facts D) (ho : o.kind ∈ kinds) (hin : inputs ⊆ Γ)
    (h : R.Stages Γ (Staging.make g o (inputs.map Prod.fst)) Q) :
    R.Logs kinds Γ (Staging.make g o (inputs.map Prod.fst)) Q [(o, inputs.map Prod.snd)] := by
  refine ⟨h, fun p k q hp e => ?_⟩
  obtain ⟨hpq, -, hwatched⟩ := Staging.watched_of_make kinds e
  rw [if_pos ho] at hwatched
  refine ⟨hpq, _, hwatched, .cons ⟨rfl, ?_⟩ .nil⟩
  exact List.forall₂_map_left_iff.mpr (List.forall₂_map_right_iff.mpr
    (List.forall₂_same.mpr fun f hf => R.grow hpq (hp f (hin hf))))

end Steps

/-! ### Operations without a result -/

section Attempts

variable (run : Primitive → List D → Option (List D)) (σ : Value → Option D)

/-- The first result, if all operands are there and the operation has one. -/
def attempt (s : Primitive) (ds : List (Option D)) : Option (List (Option D)) :=
  some [do (← run s (← ds.mapM id)).head?]

def IsStaged (p : Plan Body) : Operand → Prop
  | .graph _ => True
  | .staged i _ => i < p.content.length

/-- What operands stand for, be it nothing. -/
def attempts (g : Graph) : Reading g (Option D) where
  run := attempt run
  Reads p x d := IsStaged p x ∧ p.value? run σ x = d
  grow {p q x d} h hx := by
    obtain ⟨hstaged, rfl⟩ := hx
    cases x with
    | graph v => exact ⟨trivial, rfl⟩
    | staged i port =>
      obtain ⟨rest, hrest⟩ := h
      have hlt : i < (Plan.outputs run σ p.content).length := by
        rwa [Plan.length_outputs]
      obtain ⟨outs, houts⟩ := Plan.outputs_prefix p.content rest
      refine ⟨?_, ?_⟩
      · exact Nat.lt_of_lt_of_le hstaged (hrest ▸ List.length_append ▸ Nat.le_add_right _ _)
      · rw [Plan.value?, Plan.value?, ← hrest, ← houts, Plan.read, Plan.read,
          List.getElem?_append_left hlt]
  make {p q s inputs k ds outs} e hin hrun port d hd := by
    obtain ⟨given, outputs, -, -, rfl, rfl⟩ := Plan.make_eq_ok_iff.mp e
    obtain rfl := Option.some.inj hrun
    obtain ⟨rfl, rfl⟩ : port = 0 ∧ _ = d := by
      cases port with
      | zero => exact ⟨rfl, Option.some.inj hd⟩
      | succ port => simp at hd
    have hlen : p.staged.length = (Plan.outputs run σ p.content).length := by
      simp [Plan.length_outputs, Plan.content]
    obtain rfl : inputs.map (p.value? run σ) = ds :=
      List.forall₂_eq_eq_eq ▸ List.forall₂_map_left_iff.mpr (hin.imp fun _ _ => And.right)
    refine ⟨?_, ?_⟩
    · simp [IsStaged, Plan.content]
    · change Plan.read σ (Plan.outputs run σ (p.stage ⟨s, inputs, outputs, "", .empty⟩).content)
        (.staged p.staged.length 0) = _
      rw [Plan.content_stage, Plan.outputs_concat, Plan.read, hlen, List.getElem?_concat_length]
      have hvalue : p.value? run σ = Plan.read σ (Plan.outputs run σ p.content) := rfl
      simp only [Plan.output, List.mapM_map, List.head?_eq_getElem?, hvalue, Function.id_comp,
        Option.bind_eq_bind, Option.bind_some, Option.bind_assoc]

variable {run σ}

theorem Lists.map_value? {nodes : List (Primitive × List Operand)}
    {L : List (Primitive × List (Option D))} (h : (attempts run σ g).Lists p nodes L) :
    nodes.map (fun n => (n.1, n.2.map (p.value? run σ))) = L := by
  refine List.forall₂_eq_eq_eq ▸ List.forall₂_map_left_iff.mpr (h.imp fun n l hn => ?_)
  obtain ⟨hkind, hinputs⟩ := hn
  refine Prod.ext hkind (List.forall₂_eq_eq_eq ▸ List.forall₂_map_left_iff.mpr ?_)
  exact hinputs.imp fun _ _ => And.right

end Attempts

end Reading

end TensorGraph
