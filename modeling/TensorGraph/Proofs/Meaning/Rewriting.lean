import TensorGraph.Proofs.Meaning.Valuation

/-! # Rewrites that keep the meaning

A plan keeps what all results receive if every replaced value is equal to what takes its place,
once the staged nodes have the values that their operations make.
-/

namespace TensorGraph

variable {V : Type} {β : Type} {f : Operation β → Meaning V} {env : NodeId → V}
variable {a b c : Arena β} {p : Plan β} {ids : List NodeId} {σ τ : Value → V}

/-- The second valuation extends the first one to the staged nodes, and no replacement changes a
value. -/
structure Plan.Faithful (p : Plan β) (f : Operation β → Meaning V) (a : Arena β)
    (ids : List NodeId) (σ τ : Value → V) : Prop where
  old : ∀ v, a.contains v.node = true → τ v = σ v
  staged : ∀ (i : Nat) (n : StagedNode β) (id : NodeId), p.staged[i]? = some n →
    ids[i]? = some id → n.op.kind ≠ .parameter ∧
      ∀ port, τ (id.output port) = f n.op (n.inputs.map fun x => τ (x.resolve ids)) port
  replacements : ∀ r ∈ p.replacements, τ (r.2.resolve ids) = τ r.1

namespace Arena

theorem apply_redirect (h : p.Faithful f a ids σ τ) (v : Value) :
    τ (p.redirect ids v) = τ v := by
  refine apply_redirectAll (fun r hr => ?_) v
  obtain ⟨s, hs, rfl⟩ := List.mem_map.mp hr
  exact h.replacements s hs

theorem Linked.map_redirect (ha : a.Linked) (h : p.Faithful f a ids σ τ) {x : NodeId}
    {n : Node β} (hn : a.bare? x = some n) :
    (n.inputs.map (p.redirect ids)).map τ = n.inputs.map σ := by
  rw [List.map_map]
  refine List.map_congr_left fun v hv => ?_
  exact (apply_redirect h v).trans (h.old v (ha.contains_of_input hn hv))

theorem Rewired.valuation (hr : a.Rewired b p ids) (ha : a.Linked)
    (hσ : a.Valuation f env σ) (h : p.Faithful f a ids σ τ) : b.Valuation f env τ := by
  rw [valuation_iff_bare] at hσ ⊢
  intro x n hn port
  rcases hr.cases hn with ⟨-, m, hm, rfl⟩ | ⟨i, s, name, hs, hid, rfl⟩
  · rw [h.old ⟨x, port⟩ (contains_of_bare? hm), hσ x m hm port, ha.map_redirect h hm]
    rfl
  · obtain ⟨hkind, hvalue⟩ := h.staged i s x hs hid
    refine (hvalue port).trans (Eq.trans ?_ (if_neg hkind).symm)
    exact congrArg (f _ · port) List.map_map.symm

/-! ### What is left of a result -/

/-- A result is an anchor, which is never released. -/
theorem bare?_apply_of_result (ha : a.WellFormed) (hp : p.Accepted a) {x : NodeId} {m : Node β}
    (hm : a.bare? x = some m) (hkind : m.kind = .result) : (a.apply p).1.bare? x =
      some { m with inputs := m.inputs.map (p.redirect (a.rewire p).2) } := by
  have hr := rewired_rewire ha hp
  have hremains := remains_apply ha hp
  have hfresh : x ∉ (a.rewire p).2 := fun hmem => hr.fresh x hmem (contains_of_bare? hm)
  have hwired : (a.rewire p).1.bare? x = some { m with
      inputs := m.inputs.map (p.redirect (a.rewire p).2) } := by
    rw [hr.old x hfresh, hm]
    rfl
  obtain ⟨n, hn, hbare⟩ := Option.map_eq_some_iff.mp hwired
  have hanchor : n.isAnchor = true := by
    have hk : n.kind = .result := (congrArg Node.kind hbare).trans hkind
    rw [Node.isAnchor, hk]
    rfl
  exact (hremains.bare x (hremains.kept x n hn (.inr hanchor))).trans hwired

/-! ### What results receive -/

section Received

variable [Inhabited V]

def received (f : Operation β → Meaning V) (env : NodeId → V) (a : Arena β) (x : NodeId) :
    Option (List V) :=
  (a.node? x).map fun n => n.inputs.map (a.valueOf f env)

/-- Both have the same parameters and results, and all results receive the same values whatever
the values of the parameters are. -/
structure Agrees (f : Operation β → Meaning V) (a b : Arena β) : Prop where
  parameters : b.parameters = a.parameters
  results : b.results = a.results
  received : ∀ env x, a.kind? x = some .result →
    b.kind? x = some .result ∧ b.received f env x = a.received f env x

theorem Agrees.refl (f : Operation β → Meaning V) (a : Arena β) : a.Agrees f a :=
  ⟨rfl, rfl, fun _ _ hx => ⟨hx, rfl⟩⟩

theorem Agrees.trans (h : a.Agrees f b) (h' : b.Agrees f c) : a.Agrees f c where
  parameters := h'.parameters.trans h.parameters
  results := h'.results.trans h.results
  received env x hx := by
    obtain ⟨hb, hab⟩ := h.received env x hx
    obtain ⟨hc, hbc⟩ := h'.received env x hb
    exact ⟨hc, hbc.trans hab⟩

theorem received_eq_bare {x : NodeId} :
    a.received f env x = (a.bare? x).map fun n => n.inputs.map (a.valueOf f env) := by
  rw [received, bare?, Option.map_map]
  rfl

theorem agrees_apply (ha : a.WellFormed) (hp : p.Accepted a)
    (h : ∀ env, ∃ τ, p.Faithful f a (a.rewire p).2 (a.valueOf f env) τ) :
    a.Agrees f (a.apply p).1 := by
  have hr := rewired_rewire ha hp
  have hremains := remains_apply ha hp
  have hwf := ha.apply hp
  refine ⟨hremains.parameters.trans hr.parameters, hremains.results.trans hr.results,
    fun env x hx => ?_⟩
  obtain ⟨τ, hτ⟩ := h env
  have hvaluation := (hr.valuation ha.linked (ha.valuation f env) hτ).of_part hremains.bare
  obtain ⟨m, hm, hkind⟩ := Option.map_eq_some_iff.mp (kind?_eq_bare ▸ hx)
  have hfinal := bare?_apply_of_result ha hp hm hkind
  refine ⟨kind?_eq_bare.trans (by rw [← hkind]; exact congrArg (Option.map Node.kind) hfinal), ?_⟩
  rw [received_eq_bare, received_eq_bare, hfinal, hm]
  refine congrArg some (Eq.trans ?_ (ha.linked.map_redirect hτ hm))
  refine List.map_congr_left fun v hv => hvaluation.eq_valueOf hwf ?_
  exact hwf.linked.contains_of_input hfinal hv

end Received

end Arena

end TensorGraph
