import TensorGraph.Graph.Body
import TensorGraph.Proofs.Rewrite.Rewiring

/-! # Meaning of graphs

Operations are read as functions from the values of their inputs to a value for every output, and
a body as the function that it computes. A valuation gives every output of a graph a value such
that all nodes agree with their operations; a well-formed graph has exactly one.
-/

namespace TensorGraph

/-- What is made of the values of the inputs: a value for every output. -/
abbrev Meaning (V : Type) := List V → Nat → V

variable {V : Type} {β γ : Type}

/-- The meaning of an operation from that of the primitive ones and that of bodies. -/
def Operation.meaning (I : Primitive → Meaning V) (m : β → Meaning V) :
    Operation β → Meaning V
  | .primitive p => I p
  | .subgraph b => m b

namespace Arena

variable (f : Operation β → Meaning V) (env : NodeId → V) {a b : Arena β} {σ τ : Value → V}
variable {v : Value} {x : NodeId}

/-- Every parameter has its given value, and every other node the values its operation makes of
those of its inputs. -/
def Valuation (a : Arena β) (σ : Value → V) : Prop :=
  ∀ x n, a.node? x = some n → ∀ port, σ ⟨x, port⟩ =
    if n.kind = .parameter then env x else f n.op (n.inputs.map σ) port

/-- The value of an output, looked for no deeper than the fuel allows. -/
def evaluate [Inhabited V] (a : Arena β) : Nat → Value → V
  | 0, _ => default
  | fuel + 1, v =>
    match a.node? v.node with
    | none => default
    | some n =>
      if n.kind = .parameter then env v.node
      else f n.op (n.inputs.map (a.evaluate fuel)) v.port

def valueOf [Inhabited V] (a : Arena β) (v : Value) : V := a.evaluate f env a.occupied v

/-- The function that a graph computes as a body: the inputs are bound to its parameters and the
outputs read from its results, by position. -/
def meaning [Inhabited V] (a : Arena β) : Meaning V := fun inputs port =>
  let env x := inputs.getD (a.parameters.idxOf x) default
  ((a.results[port]?.bind fun r => a.producer? (r.input 0)).map (a.valueOf f env)).getD default

variable {f env}

/-! ### Valuations -/

theorem valuation_iff_bare : a.Valuation f env σ ↔ ∀ x n, a.bare? x = some n → ∀ port,
    σ ⟨x, port⟩ = if n.kind = .parameter then env x else f n.op (n.inputs.map σ) port := by
  constructor
  · intro h x n hn
    obtain ⟨m, hm, rfl⟩ := Option.map_eq_some_iff.mp hn
    exact h x m hm
  · intro h x n hn
    exact h x n.bare (Option.map_eq_some_iff.mpr ⟨n, hn, rfl⟩)

/-- A valuation of an arena is one of any part of it that kept its nodes. -/
theorem Valuation.of_part (h : a.Valuation f env σ)
    (hb : ∀ x, b.contains x = true → b.bare? x = a.bare? x) : b.Valuation f env σ := by
  rw [valuation_iff_bare] at h ⊢
  intro x n hn
  refine h x n ?_
  rw [← hb x (contains_of_bare? hn), hn]

theorem Valuation.eq (h : a.Valuation f env σ) (h' : a.Valuation f env τ) (ha : a.WellFormed)
    (hv : a.contains v.node = true) : σ v = τ v := by
  obtain ⟨rank, hrank, -⟩ := ha.acyclic.exists_rank ha.linked
  induction hr : rank v.node using Nat.strong_induction_on generalizing v with
  | _ r ih =>
    obtain ⟨n, hn⟩ := contains_iff.mp hv
    have hinputs : n.inputs.map σ = n.inputs.map τ := by
      refine List.map_congr_left fun w hw => ?_
      have hread : a.Reads v.node w.node := by
        rw [Reads, producers_of_node? hn]
        exact List.mem_map_of_mem hw
      exact ih _ (hr ▸ hrank _ _ hread) (ha.linked.contains_of_reads hread) rfl
    rw [h v.node n hn v.port, h' v.node n hn v.port, hinputs]

section Evaluation

variable [Inhabited V]

theorem evaluate_eq {rank : NodeId → Nat} (hrank : a.RankedBy rank) :
    ∀ (fuel fuel' : Nat) (v : Value), rank v.node < fuel → rank v.node < fuel' →
      a.evaluate f env fuel v = a.evaluate f env fuel' v
  | fuel + 1, fuel' + 1, v, h, h' => by
    simp only [evaluate]
    split
    · rfl
    · rename_i n hn
      have hinputs : n.inputs.map (a.evaluate f env fuel) =
          n.inputs.map (a.evaluate f env fuel') := by
        refine List.map_congr_left fun w hw => ?_
        have hlt : rank w.node < rank v.node := by
          refine hrank _ _ ?_
          rw [Reads, producers_of_node? hn]
          exact List.mem_map_of_mem hw
        exact evaluate_eq hrank fuel fuel' w (by omega) (by omega)
      rw [hinputs]

theorem WellFormed.valuation (h : a.WellFormed) (f : Operation β → Meaning V)
    (env : NodeId → V) : a.Valuation f env (a.valueOf f env) := by
  obtain ⟨rank, hrank, hlt⟩ := h.acyclic.exists_rank h.linked
  intro x n hn port
  have hx := hlt x (contains_of_node? hn)
  obtain ⟨k, hk⟩ : ∃ k, a.occupied = k + 1 := ⟨a.occupied - 1, by omega⟩
  have hinputs : n.inputs.map (a.evaluate f env k) = n.inputs.map (a.valueOf f env) := by
    refine List.map_congr_left fun w hw => ?_
    have hw : rank w.node < rank x := by
      refine hrank _ _ ?_
      rw [Reads, producers_of_node? hn]
      exact List.mem_map_of_mem hw
    exact evaluate_eq hrank k a.occupied w (by omega) (by omega)
  rw [← hinputs, valueOf, hk, evaluate, hn]

theorem Valuation.eq_valueOf (h : a.Valuation f env σ) (ha : a.WellFormed)
    (hv : a.contains v.node = true) : a.valueOf f env v = σ v :=
  (ha.valuation f env).eq h ha hv

end Evaluation

/-! ### Bodies -/

theorem node?_map (h : β → γ) : (a.map h).node? x = (a.node? x).map (Node.map h) := by
  simp only [node?, slot?, map, Array.getElem?_map]
  cases a.slots[x.index]? with
  | none => rfl
  | some s =>
    by_cases hg : s.generation == x.generation <;> simp [Option.filter, Slot.map, hg]

theorem producer?_map (h : β → γ) : (a.map h).producer? = a.producer? := by
  funext u
  rw [producer?, node?_map, producer?]
  cases a.node? u.node <;> rfl

theorem occupied_map (h : β → γ) : (a.map h).occupied = a.occupied := by
  simp only [occupied, map, Array.toList_map, List.countP_map]
  refine List.countP_congr fun s _ => ?_
  cases hs : s.node <;> simp [Slot.map, hs]

theorem evaluate_map [Inhabited V] (h : β → γ) (f : Operation γ → Meaning V) (fuel : Nat) :
    (a.map h).evaluate f env fuel = a.evaluate (f ∘ Operation.map h) env fuel := by
  induction fuel with
  | zero => rfl
  | succ fuel ih =>
    funext v
    simp only [evaluate, node?_map, ih]
    cases a.node? v.node with
    | none => rfl
    | some n =>
      have hkind : (n.map h).kind = n.kind := Operation.kind_map h n.op
      simp only [Option.map_some, hkind]
      rfl

theorem meaning_map [Inhabited V] (h : β → γ) (f : Operation γ → Meaning V) :
    (a.map h).meaning f = a.meaning (f ∘ Operation.map h) := by
  funext inputs port
  simp only [meaning, producer?_map]
  congr 2
  funext v
  rw [valueOf, occupied_map, evaluate_map]
  rfl

end Arena

namespace Body

variable [Inhabited V] (I : Primitive → Meaning V)

def meaning : Body → Meaning V := fold (Arena.meaning (Operation.meaning I id))

/-- A body means what its graph computes when the bodies in it mean what theirs compute. -/
theorem meaning_mk (g : Graph) :
    meaning I (mk g) = g.meaning (Operation.meaning I (meaning I)) := by
  rw [meaning, fold_mk, Arena.meaning_map]
  congr 1
  funext op
  cases op <;> rfl

end Body

end TensorGraph
