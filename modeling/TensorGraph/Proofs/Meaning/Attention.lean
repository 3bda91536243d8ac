import Mathlib
import TensorGraph.Proofs.Attention.Island
import TensorGraph.Proofs.Meaning.Copying
import TensorGraph.Proofs.Meaning.Rewriting
import TensorGraph.Proofs.Pass.Builtin
import TensorGraph.Proofs.Rewrite.History
import TensorGraph.Proofs.Rewrite.Staging

/-! # Meaning under fusion

The subgraph that takes the place of an island computes what the island computed. So the
attention pass keeps what every result of a graph receives, however many islands it fuses and
whether it ends with a failure or not.
-/

namespace TensorGraph.Attention

variable {V : Type} [Inhabited V] {g h : Graph} {i : Island} {boundary : Boundary} {p : Plan Body}

theorem Island.replacement_eq_ok (e : i.replacement g boundary = .ok p) :
    ∃ body n, i.body g boundary = .ok body ∧ p.staged = [n] ∧ n.op = .subgraph (.mk body) ∧
      n.inputs = boundary.inputs.map .graph ∧
      p.replacements = boundary.outputs.zipIdx.map fun x => (x.1, .staged 0 x.2) := by
  obtain ⟨body, sink, given, specs, hbody, -, -, -, rfl⟩ := replacement_eq_ok_iff.mp e
  exact ⟨body, _, hbody, rfl, rfl, rfl, rfl⟩

theorem Island.faithful (I : Primitive → Meaning V) {env : NodeId → V} (hg : g.WellFormed)
    (hi : i.Moves g) (e : i.replacement g boundary = .ok p) (hp : p.Accepted g) :
    ∃ τ, p.Faithful (Operation.meaning I (Body.meaning I)) g (g.rewire p).2
      (g.valueOf (Operation.meaning I (Body.meaning I)) env) τ := by
  obtain ⟨body, n, hbody, hstaged, hop, hinputs, hreplacements⟩ := replacement_eq_ok e
  have hr := Arena.rewired_rewire hg hp
  obtain ⟨id, hid⟩ : ∃ id, (g.rewire p).2 = [id] :=
    List.length_eq_one_iff.mp (by rw [hr.length, hstaged]; rfl)
  rw [hid] at hr ⊢
  have hσ := hg.valuation (Operation.meaning I (Body.meaning I)) env
  generalize g.valueOf (Operation.meaning I (Body.meaning I)) env = σ at hσ
  have hmeaning {v : Value} {port : Nat} (hv : boundary.outputs[port]? = some v) :
      Body.meaning I (.mk body) (boundary.inputs.map σ) port = σ v := by
    rw [Body.meaning_mk]
    exact meaning_body hσ hi hbody hv
  have hold {v : Value} (hv : g.contains v.node = true) : v.node ≠ id := fun he =>
    hr.fresh id List.mem_cons_self (he ▸ hv)
  refine ⟨fun v => if v.node = id then Body.meaning I (.mk body) (boundary.inputs.map σ) v.port
    else σ v, fun v hv => if_neg (hold hv), fun j m x hm hx => ?_, fun s hs => ?_⟩
  · rw [hstaged, List.getElem?_singleton] at hm
    rw [List.getElem?_singleton] at hx
    split at hm
    · rename_i hj
      rw [if_pos hj] at hx
      obtain rfl := Option.some.inj hm
      obtain rfl := Option.some.inj hx
      have hkind : n.op.kind = .subgraph := congrArg Operation.kind hop
      refine ⟨hkind.trans_ne (by decide), fun port => ?_⟩
      rw [hop, hinputs, List.map_map]
      refine (if_pos rfl).trans (congrArg (Body.meaning I (.mk body) · port) ?_)
      refine List.map_congr_left fun v hv => (if_neg (hold ?_)).symm
      have hmem : Operand.graph v ∈ n.inputs := by
        rw [hinputs]
        exact List.mem_map_of_mem hv
      exact Arena.contains_of_hasOutput (hp.operands 0 n (by rw [hstaged]; rfl) _ hmem)
    · cases hm
  · obtain ⟨-, old, new, hspec, -, -⟩ := hp.replacements s hs
    have hlive : g.contains s.1.node = true := by
      refine Arena.contains_of_hasOutput ?_
      rw [Arena.hasOutput_eq_spec?, hspec]
      rfl
    rw [hreplacements] at hs
    obtain ⟨⟨v, port⟩, hv, rfl⟩ := List.mem_map.mp hs
    exact (if_pos rfl).trans ((hmeaning (List.mem_zipIdx_iff_getElem?.mp hv)).trans
      (if_neg (hold hlive)).symm)

/-! ### All islands of a run -/

/-- A commit puts subgraphs in and keeps the kinds of all other nodes. -/
theorem Island.Moves.apply (hi : i.Moves g) (hg : g.WellFormed) (hp : p.Accepted g)
    (hstaged : ∀ n ∈ p.staged, n.op.kind.isAnchor = false) : i.Moves (g.apply p).1 := by
  have hr := Arena.rewired_rewire hg hp
  have hremains := (Arena.releases_released g p).remains hr.wellFormed
  intro id hid n hn
  rw [Arena.apply_eq] at hn
  have hlive : (g.released p).1.contains id = true := Arena.contains_of_node? hn
  have hbare : (g.rewire p).1.bare? id = some n.bare := by
    rw [← hremains.bare id hlive]
    exact congrArg (Option.map Node.bare) hn
  rcases hr.cases hbare with ⟨-, m, hm, he⟩ | ⟨k, s, name, hs, -, he⟩
  · obtain ⟨k, hk, rfl⟩ := Option.map_eq_some_iff.mp hm
    exact (congrArg Kind.isAnchor (congrArg Node.kind he)).trans (hi id hid k hk)
  · have hkind := congrArg Node.kind he
    exact (congrArg Kind.isAnchor hkind).trans (hstaged s (List.mem_of_getElem? hs))

section Run

variable (I : Primitive → Meaning V) {c : Config} {r : Ranking} {o : Outcome} {is : List Island}

theorem agrees_fuseAll (hg : g.WellFormed) (hi : ∀ i ∈ is, i.Moves g) :
    g.Agrees (Operation.meaning I (Body.meaning I)) (fuseAll c is r g o).1 := by
  induction is generalizing r g o with
  | nil => exact .refl _ g
  | cons i is ih =>
    obtain ⟨hmoves, hrest⟩ := List.forall_mem_cons.mp hi
    unfold fuseAll
    split
    · exact .refl _ g
    · split
      · split
        · exact .refl _ g
        · exact ih hg hrest
        · rename_i h done e
          rcases fusePermitted_eq_ok e with he | ⟨b, p, -, hplan, hp, he⟩
          · cases he
          · obtain rfl : h = _ := congrArg Prod.fst (Option.some.inj he)
            have hagrees := Arena.agrees_apply hg hp fun env => i.faithful I hg hmoves hplan hp
            obtain ⟨body, n, -, hstaged, hop, -⟩ := Island.replacement_eq_ok hplan
            have hkind : ∀ m ∈ p.staged, m.op.kind.isAnchor = false := by
              rw [hstaged]
              refine List.forall_mem_singleton.mpr ?_
              rw [hop]
              rfl
            exact hagrees.trans (ih (hg.apply hp) fun j hj => (hrest j hj).apply hg hp hkind)
      · exact ih hg hrest

/-- The attention pass keeps what every result receives, under every reading of the operations
and all values of the parameters. -/
theorem agrees_run (c : Config) (hg : g.WellFormed) :
    g.Agrees (Operation.meaning I (Body.meaning I)) (run c g).1 := by
  unfold run
  split
  · exact .refl _ g
  · exact agrees_fuseAll I hg fun i hi => moves_of_mem_discover (mem_of_mem_select hi)

end Run

/-- Scores of a query and keys, their softmax, and the product of that with values. -/
def plainAttention : Graph := Arena.reached .standard [
  .addParameter "query" ⟨.f32, .ofSizes [2, 4]⟩,
  .addParameter "keys" ⟨.f32, .ofSizes [3, 4]⟩,
  .addParameter "values" ⟨.f32, .ofSizes [3, 4]⟩,
  .addNode (Primitive.matMul false true) [⟨⟨0, 0⟩, 0⟩, ⟨⟨1, 0⟩, 0⟩],
  .addNode (Primitive.softmax (-1)) [⟨⟨3, 0⟩, 0⟩],
  .addNode (Primitive.matMul false false) [⟨⟨4, 0⟩, 0⟩, ⟨⟨2, 0⟩, 0⟩],
  .addResult ⟨⟨5, 0⟩, 0⟩]

/-- Every operation writes the numbers it reads as the digits of one number. -/
def digits : Primitive → Meaning Nat := fun _ inputs _ => inputs.foldl (10 * · + ·) 0

/-- The seven nodes become five, and the result still receives the same. -/
theorem received_plainAttention : (run .standard plainAttention).1.live = 5 ∧
    (run .standard plainAttention).1.received (Operation.meaning digits (Body.meaning digits))
      (fun x => x.index + 1) ⟨6, 0⟩ = some [123] := by
  have hg : plainAttention.WellFormed := Arena.wellFormed_reached _ _
  have hagrees := agrees_run digits .standard hg
  obtain ⟨-, h⟩ := hagrees.received (fun x => x.index + 1) ⟨6, 0⟩ (by rfl)
  exact ⟨by cbv, h.trans (by rfl)⟩

end TensorGraph.Attention
