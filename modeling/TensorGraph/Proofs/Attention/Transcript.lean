import Mathlib
import TensorGraph.Proofs.Attention.Mirroring
import TensorGraph.Proofs.Rewrite.History
import TensorGraph.Proofs.Rewrite.Ledger
import TensorGraph.Proofs.Rewrite.Reading

/-! # Bodies as copies of islands

The body for an island has one copy of every node and constant of the island, and apart from its
parameters and results nothing else. A copy does what its original does and reads what stands for
the values that the original reads: an output of another copy, or the parameter at the position of
the value among those that enter.
-/

namespace TensorGraph

theorem pairwise_idxOf_eraseDups {α : Type} [DecidableEq α] (l : List α) (p : α → Bool) :
    (l.filter p).eraseDups.Pairwise fun x y => l.idxOf x < l.idxOf y := by
  induction l generalizing p with
  | nil => exact .nil
  | cons a l ih =>
    have hlater {q : α → Bool} (hq : q a = false) :
        (l.filter q).eraseDups.Pairwise fun x y => (a :: l).idxOf x < (a :: l).idxOf y := by
      have hne {x : α} (hx : x ∈ (l.filter q).eraseDups) : a ≠ x := by
        rintro rfl
        have hkept := (List.mem_filter.mp (List.mem_eraseDups.mp hx)).2
        rw [hq] at hkept
        cases hkept
      refine (ih q).imp_of_mem fun hx hy h => ?_
      rw [List.idxOf_cons_ne l (hne hx), List.idxOf_cons_ne l (hne hy)]
      exact Nat.succ_lt_succ h
    cases ha : p a with
    | false =>
      rw [List.filter_cons_of_neg (ne_true_of_eq_false ha)]
      exact hlater ha
    | true =>
      rw [List.filter_cons_of_pos ha, List.eraseDups_cons, List.filter_filter]
      refine List.pairwise_cons.mpr ⟨fun x hx => ?_, hlater (by simp)⟩
      have hne : a ≠ x := by
        rintro rfl
        simpa using List.mem_eraseDups.mp hx
      rw [List.idxOf_cons_self, List.idxOf_cons_ne l hne]
      exact Nat.succ_pos _

namespace Attention

variable {g : Graph} {c c' : Copying} {ins outs : List Value} {ids ps : List NodeId}
variable {φ : NodeId → NodeId} {v w : Value} {id copy x : NodeId} {i : Island} {b : Boundary}

/-- What stands for a value in a body: an output of the copy of its node, or the parameter at its
position among the entering values. -/
inductive StandsFor (φ : NodeId → NodeId) (ids : List NodeId) (ins : List Value)
    (ps : List NodeId) : Value → Value → Prop
  | copy {v : Value} (h : v.node ∈ ids) :
      StandsFor φ ids ins ps v ((φ v.node).output v.port)
  | parameter {v : Value} {k : Nat} {p : NodeId} (h : v.node ∉ ids) (hv : ins[k]? = some v)
      (hp : ps[k]? = some p) : StandsFor φ ids ins ps v (p.output 0)

/-- A node like another one that reads what stands for the values that the other one reads. -/
structure IsCopy (R : Value → Value → Prop) (n m : Node Body) : Prop where
  op : m.op = n.op
  specs : m.specs = n.specs
  name : m.name = n.name
  annotations : m.annotations = n.annotations
  inputs : List.Forall₂ R n.inputs m.inputs

theorem IsCopy.imp {R S : Value → Value → Prop} {n m : Node Body} (h : IsCopy R n m)
    (hRS : ∀ v w, R v w → S v w) : IsCopy S n m :=
  { h with inputs := h.inputs.imp hRS }

theorem IsCopy.of_bare {R : Value → Value → Prop} {n m m' : Node Body} (h : IsCopy R n m)
    (e : m'.bare = m.bare) : IsCopy R n m' := by
  have hspecs : m'.specs = m.specs := by
    rw [← Arena.Node.specs_bare, e, Arena.Node.specs_bare]
  have hinputs : m'.inputs = m.inputs := (congrArg Node.inputs e :)
  refine ⟨?_, hspecs.trans h.specs, ?_, ?_, hinputs ▸ h.inputs⟩
  · exact (congrArg Node.op e).trans h.op
  · exact (congrArg Node.name e).trans h.name
  · exact (congrArg Node.annotations e).trans h.annotations

theorem IsCopy.exists_of_addVerbatim {R : Value → Value → Prop} {a d : Graph} {n : Node Body}
    {ws : List Value} (ha : a.WellFormed) (e : a.addVerbatim n.op ws n.specs = .ok (d, copy))
    (hws : List.Forall₂ R n.inputs ws) :
    ∃ m, (d.modifyNode copy.index fun m =>
      { m with name := n.name, annotations := n.annotations }).node? copy = some m ∧
        IsCopy R n m := by
  obtain ⟨k, hk, hbare⟩ := Option.map_eq_some_iff.mp (ha.bare?_addVerbatim e)
  have hop : k.op = n.op := (congrArg Node.op hbare :)
  have hinputs : k.inputs = ws := (congrArg Node.inputs hbare :)
  have hspecs : k.specs = n.specs := by
    rw [← Arena.Node.specs_bare, hbare]
    simp [Node.fresh, Node.specs]
  refine ⟨{ k with name := n.name, annotations := n.annotations }, ?_, hop, hspecs, rfl, rfl,
    hinputs ▸ hws⟩
  rw [Arena.node?_modifyNode_of_live hk, if_pos rfl]

/-- What stands for a value does so with one more parameter, too. -/
theorem StandsFor.concat (h : StandsFor φ ids ins ps v w) (u : Value) (p : NodeId) :
    StandsFor φ ids (ins ++ [u]) (ps ++ [p]) v w := by
  cases h with
  | copy hv => exact .copy hv
  | parameter hv hk hp =>
    have hk' := getElem?_of_prefix (List.prefix_append ins [u]) hk
    have hp' := getElem?_of_prefix (List.prefix_append ps [p]) hp
    exact .parameter hv hk' hp'

theorem StandsFor.update (h : StandsFor φ ids ins ps v w) (hid : id ∉ ids)
    (hins : ∀ v ∈ ins, v.node ≠ id) (copy : NodeId) :
    StandsFor (Function.update φ id copy) (ids ++ [id]) ins ps v w := by
  cases h with
  | copy hv =>
    rw [← Function.update_of_ne (ne_of_mem_of_not_mem hv hid) copy φ]
    exact .copy (List.mem_append_left _ hv)
  | parameter hv hk hp =>
    refine .parameter ?_ hk hp
    rw [List.mem_append, List.mem_singleton]
    exact not_or.mpr ⟨hv, hins v (List.mem_of_getElem? hk)⟩

theorem injOn_update (h : Set.InjOn φ {x | x ∈ ids}) (hid : id ∉ ids)
    (hcopy : ∀ x ∈ ids, φ x ≠ copy) :
    Set.InjOn (Function.update φ id copy) {x | x ∈ ids ++ [id]} := by
  have hset : {x | x ∈ ids ++ [id]} = insert id {x | x ∈ ids} := by
    ext x
    simp [or_comm]
  have hold (x : NodeId) (hx : x ∈ ids) : φ x = Function.update φ id copy x :=
    (Function.update_of_ne (ne_of_mem_of_not_mem hx hid) copy φ).symm
  rw [hset, Set.injOn_insert (show id ∉ {x | x ∈ ids} from hid), Function.update_self]
  refine ⟨h.congr hold, ?_⟩
  rintro ⟨x, hx, he⟩
  exact hcopy x hx ((hold x hx).trans he)

/-- A body under construction with parameters for the first values and results for the second
ones, and between them one copy of each of the nodes. -/
structure Renders (g : Graph) (c : Copying) (φ : NodeId → NodeId) (ins : List Value)
    (ids : List NodeId) (outs : List Value) : Prop where
  wellFormed : c.body.WellFormed
  parameters : c.body.parameters.length = ins.length
  outside : ∀ v ∈ ins, v.node ∉ ids
  injOn : Set.InjOn φ {x | x ∈ ids}
  known : ∀ k ∈ c.known, StandsFor φ ids ins c.body.parameters k.1 k.2
  copies : ∀ x ∈ ids, ∃ n m, g.node? x = some n ∧ c.body.node? (φ x) = some m ∧
    IsCopy (StandsFor φ ids ins c.body.parameters) n m
  covers : ∀ y, c.body.contains y = true →
    y ∈ c.body.parameters ∨ y ∈ c.body.results ∨ ∃ x ∈ ids, φ x = y
  results : List.Forall₂ (fun v r => ∃ w, c.body.producer? (r.input 0) = some w ∧
    StandsFor φ ids ins c.body.parameters v w) outs c.body.results

namespace Renders

theorem start (g : Graph) (table : CapabilityTable) (φ : NodeId → NodeId) :
    Renders g (.start table) φ [] [] [] where
  wellFormed := Arena.wellFormed_empty table
  parameters := rfl
  outside _ hv := absurd hv List.not_mem_nil
  injOn _ hx := absurd hx List.not_mem_nil
  known _ hk := absurd hk List.not_mem_nil
  copies _ hx := absurd hx List.not_mem_nil
  covers y hy := by
    obtain ⟨n, hn⟩ := Arena.contains_iff.mp hy
    cases hn
  results := .nil

/-! ### One more node -/

section Grown

variable {d : Graph} {op : Operation Body} {inputs ins' : List Value} {ψ : NodeId → NodeId}
variable {ids' : List NodeId}
variable (h : Renders g c φ ins ids outs) (hg : c.body.Grown d id op inputs)
include h hg

theorem copies_of_grown (hψ : ∀ x ∈ ids, ψ x = φ x) {S : Value → Value → Prop}
    (hS : ∀ v w, StandsFor φ ids ins c.body.parameters v w → S v w) (hx : x ∈ ids) :
    ∃ n m, g.node? x = some n ∧ d.node? (ψ x) = some m ∧ IsCopy S n m := by
  obtain ⟨n, m, hn, hm, hcopy⟩ := h.copies x hx
  have hpart := (hg.part (Arena.contains_of_node? hm)).symm
  rw [Arena.bare?, Arena.bare?, hm] at hpart
  obtain ⟨m', hm', hbare⟩ := Option.map_eq_some_iff.mp hpart
  rw [hψ x hx]
  exact ⟨n, m', hn, hm', (hcopy.of_bare hbare).imp hS⟩

theorem results_of_grown {S : Value → Value → Prop}
    (hS : ∀ v w, StandsFor φ ids ins c.body.parameters v w → S v w) :
    List.Forall₂ (fun v r => ∃ w, d.producer? (r.input 0) = some w ∧ S v w) outs
      c.body.results := by
  refine h.results.imp fun v r ⟨w, hw, hvw⟩ => ⟨w, ?_, hS v w hvw⟩
  obtain ⟨n, hn, -⟩ := Arena.producer?_eq_some_iff.mp hw
  rw [hg.producer?_eq (Arena.contains_of_node? hn), hw]

end Grown

/-! ### Parameters -/

theorem addParameter (h : Renders g c φ ins ids outs) (hv : v.node ∉ ids) {position : Nat}
    (e : c.addParameter g v position = .ok c') : Renders g c' φ (ins ++ [v]) ids outs := by
  obtain ⟨d, p, name, spec, hd, rfl, hknown⟩ := Copies.addParameter_eq_ok e
  have hg := h.wellFormed.grown_addParameter name spec
  obtain ⟨hps, hrs⟩ := Arena.addParameter_lists h.wellFormed name spec
  rw [hd] at hg hps hrs
  have hext (u w : Value) (hu : StandsFor φ ids ins c.body.parameters u w) :
      StandsFor φ ids (ins ++ [v]) c'.body.parameters u w := by
    rw [hps]
    exact hu.concat v p
  constructor
  · exact hg.wellFormed
  · rw [hps, List.length_append, List.length_append, h.parameters]
    rfl
  · exact List.forall_mem_append.mpr ⟨h.outside, List.forall_mem_singleton.mpr hv⟩
  · exact h.injOn
  · rw [hknown, List.forall_mem_cons]
    constructor
    · refine .parameter hv (k := ins.length) List.getElem?_concat_length ?_
      rw [hps, ← h.parameters]
      exact List.getElem?_concat_length
    · exact fun k hk => hext _ _ (h.known k hk)
  · exact fun x hx => h.copies_of_grown hg (fun _ _ => rfl) hext hx
  · intro y hy
    rw [hps, hrs, List.mem_append, List.mem_singleton]
    rcases hg.contains_iff.mp hy with rfl | hy
    · exact .inl (.inr rfl)
    · exact (h.covers y hy).imp_left .inl
  · rw [hrs]
    exact h.results_of_grown hg hext

/-! ### Copies -/

theorem addCopy (h : Renders g c φ ins ids outs) (hid : id ∉ ids) (hins : ∀ v ∈ ins, v.node ≠ id)
    (hanchor : ∀ n, g.node? id = some n → n.isAnchor = false) (e : c.addCopy g id = .ok c') :
    ∃ copy, Renders g c' (Function.update φ id copy) ins (ids ++ [id]) outs := by
  obtain ⟨n, ws, d, copy, hn, hws, hd, hbody, hknown⟩ := Copies.addCopy_eq_ok e
  have hg := (h.wellFormed.grown_addVerbatim hd).remark n.name n.annotations
  obtain ⟨hps, hrs⟩ := Arena.addVerbatim_lists h.wellFormed hd
  have hkind : n.op.kind.isAnchor = false := hanchor n hn
  rw [Arena.enlist_of_not_isAnchor hkind] at hps hrs
  rw [← hbody] at hg
  replace hps : c'.body.parameters = c.body.parameters := by rw [hbody, ← hps]; rfl
  replace hrs : c'.body.results = c.body.results := by rw [hbody, ← hrs]; rfl
  have hold (x : NodeId) (hx : x ∈ ids) : Function.update φ id copy x = φ x :=
    Function.update_of_ne (ne_of_mem_of_not_mem hx hid) copy φ
  have hnew : Function.update φ id copy id = copy := Function.update_self id copy φ
  have hself : id ∈ ids ++ [id] := List.mem_append_right _ (List.mem_singleton_self id)
  have hext (u w : Value) (hu : StandsFor φ ids ins c.body.parameters u w) :
      StandsFor (Function.update φ id copy) (ids ++ [id]) ins c'.body.parameters u w := by
    rw [hps]
    exact hu.update hid hins copy
  refine ⟨copy, hg.wellFormed, hps ▸ h.parameters, ?_, ?_, ?_, ?_, ?_, ?_⟩
  · intro v hv
    rw [List.mem_append, List.mem_singleton]
    exact not_or.mpr ⟨h.outside v hv, hins v hv⟩
  · refine injOn_update h.injOn hid fun x hx he => ?_
    -- the other copies were there before this one
    obtain ⟨-, m, -, hm, -⟩ := h.copies x hx
    rw [he] at hm
    exact hg.fresh (Arena.contains_of_node? hm)
  · rw [hknown]
    intro k hk
    rcases List.mem_append.mp hk with hk | hk
    · obtain ⟨port, -, rfl⟩ := List.mem_map.mp hk
      have hstands : StandsFor (Function.update φ id copy) (ids ++ [id]) ins c'.body.parameters
          (id.output port) ((Function.update φ id copy id).output port) := .copy hself
      rwa [hnew] at hstands
    · exact hext _ _ (h.known k hk)
  · refine List.forall_mem_append.mpr ⟨fun x hx => h.copies_of_grown hg hold hext hx, ?_⟩
    rw [List.forall_mem_singleton, hnew]
    obtain ⟨m, hm, hcopy⟩ := IsCopy.exists_of_addVerbatim h.wellFormed hd
      ((Copies.forall₂_known hws).imp fun v w hk => hext v w (h.known _ hk))
    exact ⟨n, m, hn, hbody ▸ hm, hcopy⟩
  · intro y hy
    rw [hps, hrs]
    rcases hg.contains_iff.mp hy with rfl | hy
    · exact .inr (.inr ⟨id, hself, hnew⟩)
    · refine (h.covers y hy).imp_right (Or.imp_right ?_)
      rintro ⟨x, hx, rfl⟩
      exact ⟨x, List.mem_append_left _ hx, hold x hx⟩
  · rw [hrs]
    exact h.results_of_grown hg hext

/-! ### Results -/

theorem addResult (h : Renders g c φ ins ids outs) (e : c.addResult v = .ok c') :
    Renders g c' φ ins ids (outs ++ [v]) := by
  obtain ⟨w, d, r, outputs, hw, hd, rfl, hknown⟩ := Copies.addResult_eq_ok e
  have hg := h.wellFormed.grown_addVerbatim hd
  obtain ⟨hps, hrs⟩ := Arena.addVerbatim_lists h.wellFormed hd
  replace hps : c'.body.parameters = c.body.parameters := hps
  replace hrs : c'.body.results = c.body.results ++ [r] := hrs
  have hext (u w : Value) (hu : StandsFor φ ids ins c.body.parameters u w) :
      StandsFor φ ids ins c'.body.parameters u w := by rwa [hps]
  refine ⟨hg.wellFormed, hps ▸ h.parameters, h.outside, h.injOn, ?_, ?_, ?_, ?_⟩
  · rw [hknown]
    exact fun k hk => hext _ _ (h.known k hk)
  · exact fun x hx => h.copies_of_grown hg (fun _ _ => rfl) hext hx
  · intro y hy
    rw [hps, hrs, List.mem_append, List.mem_singleton]
    rcases hg.contains_iff.mp hy with rfl | hy
    · exact .inr (.inl (.inr rfl))
    · exact (h.covers y hy).imp_right (Or.imp_left .inl)
  · rw [hrs]
    refine List.rel_append (h.results_of_grown hg hext) (.cons ⟨w, ?_, ?_⟩ .nil)
    · obtain ⟨m, hm, -, hinputs⟩ := hg.new
      rw [Arena.producer?_eq_bare]
      exact (congrArg (Option.bind · _) hm).trans (congrArg (·[0]?) hinputs)
    · exact hext _ _ (h.known _ hw)

theorem of_body {body : Graph} (hids : (i.constants ++ i.nodes).Nodup)
    (hanchor : ∀ x ∈ i.constants ++ i.nodes, ∀ n, g.node? x = some n → n.isAnchor = false)
    (hins : ∀ v ∈ b.inputs, v.node ∉ i.constants ++ i.nodes) (e : i.body g b = .ok body) :
    ∃ c φ, c.body = body ∧ Renders g c φ b.inputs (i.constants ++ i.nodes) b.outputs := by
  have hcopy {c c' : Copying} {ids : List NodeId} {x : NodeId}
      (hsplit : ids ++ [x] <+: i.constants ++ i.nodes) (h : ∃ φ, Renders g c φ b.inputs ids [])
      (hc : c.addCopy g x = .ok c') : ∃ φ, Renders g c' φ b.inputs (ids ++ [x]) [] := by
    obtain ⟨φ, h⟩ := h
    have hx : x ∈ i.constants ++ i.nodes := hsplit.subset List.mem_concat_self
    have hnew : x ∉ ids := fun hmem => List.disjoint_of_nodup_append
      (hids.sublist hsplit.sublist) hmem (List.mem_singleton_self x)
    obtain ⟨copy, h'⟩ := h.addCopy hnew (fun v hv he => hins v hv (he ▸ hx)) (hanchor x hx) hc
    exact ⟨_, h'⟩
  obtain ⟨c, hc, φ, h⟩ := i.body_induction
    (P := fun c ins ids outs => ∃ φ, Renders g c φ ins ids outs) ⟨id, start g g.table id⟩
    (fun ⟨φ, h⟩ hc => ⟨φ, h.addParameter List.not_mem_nil hc⟩) hcopy
    (fun ⟨φ, h⟩ hc => ⟨φ, h.addResult hc⟩) e
  exact ⟨c, φ, hc, h⟩

end Renders

namespace Island

def reads (i : Island) (g : Graph) : List Value :=
  i.nodes.flatMap fun x => ((g.node? x).map Node.inputs).getD []

theorem inputs_eq (e : i.boundary g = .ok b) : b.inputs = ((i.reads g).filter fun v =>
    !i.nodes.contains v.node && !i.constants.contains v.node).eraseDups := by
  obtain ⟨nodes, hnodes, rfl⟩ := boundary_eq_ok_iff.mp e
  have hreads : i.reads g = nodes.flatMap Node.inputs := by
    have hmap := congrArg (List.flatMap fun o : Option (Node Body) => (o.map Node.inputs).getD [])
      hnodes
    rw [List.flatMap_map, List.flatMap_map] at hmap
    exact hmap
  rw [hreads]
  rfl

theorem pairwise_inputs (e : i.boundary g = .ok b) :
    b.inputs.Pairwise fun v w => (i.reads g).idxOf v < (i.reads g).idxOf w := by
  rw [inputs_eq e]
  exact pairwise_idxOf_eraseDups _ _

theorem mem_inputs_iff_reads (e : i.boundary g = .ok b) :
    v ∈ b.inputs ↔ v ∈ i.reads g ∧ v.node ∉ i.constants ++ i.nodes := by
  rw [inputs_eq e, List.mem_eraseDups, List.mem_filter]
  simp [and_comm]

theorem nodup_collect {config : Config} {r : Ranking} {variant : Variant} {m : Match}
    (hr : r.Ranks g) (hfits : i.Fits g) (e : collect config r g variant m = some i) :
    (i.constants ++ i.nodes).Nodup := by
  have hconstants : i.constants.Nodup := by
    unfold collect at e
    dsimp only at e
    split at e
    · cases e
    split at e
    · obtain rfl := Option.some.inj e
      dsimp only
      split
      · exact Match.nodup_eraseDups _
      · exact .nil
    · cases e
  obtain ⟨members, -, -, hnodes, -⟩ := collect_eq_some e
  refine hconstants.append (hnodes ▸ hr.nodup.filter _) fun x hx hmem => ?_
  exact hfits.ne_constant hmem (hfits.constants x hx).1

/-- The body has one copy of every node and constant of the island, a parameter for every value
that enters it, and a result for every value that leaves it. -/
structure Transcript (i : Island) (g : Graph) (b : Boundary) (body : Graph)
    (φ : NodeId → NodeId) : Prop where
  /-- The copies are all nodes but parameters and results. -/
  bijOn : Set.BijOn φ {x | x ∈ i.constants ++ i.nodes}
    {y | ∃ m, body.node? y = some m ∧ m.isAnchor = false}
  copies : ∀ x ∈ i.constants ++ i.nodes, ∃ n m, g.node? x = some n ∧
    body.node? (φ x) = some m ∧
      IsCopy (StandsFor φ (i.constants ++ i.nodes) b.inputs body.parameters) n m
  parameters : body.parameters.map (fun p => body.spec? (p.output 0)) = b.inputs.map g.spec?
  results : List.Forall₂ (fun v r => v.node ∈ i.nodes ∧
    body.producer? (r.input 0) = some ((φ v.node).output v.port)) b.outputs body.results

theorem transcript_of_renders (h : Renders g c φ b.inputs (i.constants ++ i.nodes) b.outputs)
    (hanchor : ∀ x ∈ i.constants ++ i.nodes, ∀ n, g.node? x = some n → n.isAnchor = false)
    (hparameters : c.body.parameters.map (fun p => c.body.spec? (p.output 0)) =
      b.inputs.map g.spec?)
    (hout : ∀ v ∈ b.outputs, v.node ∈ i.nodes) : i.Transcript g b c.body φ := by
  refine ⟨⟨?_, h.injOn, ?_⟩, h.copies, hparameters, ?_⟩
  · intro x hx
    obtain ⟨n, m, hn, hm, hcopy⟩ := h.copies x hx
    refine ⟨m, hm, ?_⟩
    have hkind := hanchor x hx n hn
    rwa [Node.isAnchor, Node.kind, ← hcopy.op] at hkind
  · rintro y ⟨m, hm, hkind⟩
    have hnot {k : Kind} (hk : k.isAnchor = true) : c.body.kind? y ≠ some k := by
      intro he
      obtain rfl : m.kind = k :=
        Option.some.inj ((congrArg (Option.map Node.kind) hm).symm.trans he)
      exact absurd hk (ne_true_of_eq_false hkind)
    rcases h.covers y (Arena.contains_of_node? hm) with hy | hy | hy
    · exact absurd (h.wellFormed.parameters y hy) (hnot rfl)
    · exact absurd (h.wellFormed.results y hy) (hnot rfl)
    · exact hy
  · refine ((List.forall₂_and_left _ _).mpr ⟨hout, h.results⟩).imp ?_
    rintro v r ⟨hv, w, hw, hvw⟩
    refine ⟨hv, ?_⟩
    cases hvw with
    | copy => exact hw
    | parameter hv' => exact absurd (List.mem_append_right _ hv) hv'

/-- On a graph in which every recorded spec is the one that inference gives, the body of an island
of a match is built. It is valid, its parameters are the distinct values that enter, in the order
in which they are used first, and the rest of it is a copy of the island. -/
theorem exists_transcript {config : Config} {r : Ranking} {variant : Variant} {m : Match}
    {root : NodeId} (hg : g.WellFormed) (ht : g.table = .standard) (hi : g.Inferred)
    (hr : Ranking.compute g = .ok r) (hmatch : variant.motif.matchNode g root = some m)
    (e : collect config r g variant m = some i) :
    ∃ b body φ, i.boundary g = .ok b ∧ i.body g b = .ok body ∧ body.validate = .ok () ∧
      (b.inputs.Pairwise fun v w => (i.reads g).idxOf v < (i.reads g).idxOf w) ∧
      (∀ v, v ∈ b.inputs ↔ v ∈ i.reads g ∧ v.node ∉ i.constants ++ i.nodes) ∧
      i.Transcript g b body φ := by
  have hranks : r.Ranks g := by
    obtain ⟨s, hs, hranks, -⟩ := Ranking.compute_eq_ok hg
    rwa [Except.ok.inj (hr.symm.trans hs)]
  have hfits : i.Fits g := fits_collect hranks
    (fun _ hid => Pattern.kind?_of_mem_nodes variant.ensures_motif.2.1 hmatch hid) e
  obtain ⟨b, hb⟩ := exists_boundary fun x hx => hfits.contains (List.mem_append_left _ hx)
  obtain ⟨c, hbody, hmirrors⟩ := exists_body hg ht hi hfits hb
  have hanchor (x : NodeId) (hx : x ∈ i.constants ++ i.nodes) (n : Node Body)
      (hn : g.node? x = some n) : n.isAnchor = false := isAnchor_of_fits hfits hx hn
  obtain ⟨c', φ, hc', hrenders⟩ := Renders.of_body (nodup_collect hranks hfits e) hanchor
    (fun v hv => ((mem_inputs_iff_reads hb).mp hv).2) hbody
  have htranscript := transcript_of_renders hrenders hanchor (hc' ▸ hmirrors.parameters)
    fun v hv => ((mem_outputs_iff hb).mp hv).1
  rw [hc'] at htranscript
  exact ⟨b, c.body, φ, hb, hbody, hmirrors.wellFormed.validate, pairwise_inputs hb,
    fun v => mem_inputs_iff_reads hb, htranscript⟩

end Island

/-- Scaled attention of one value to itself. -/
def selfAttention : Graph := Arena.reached .standard [
  .addParameter "tokens" ⟨.f32, .ofSizes [2, 4]⟩,
  .addNode (Primitive.constant (.splat .f32 [1] 2)) [],
  .addNode (Primitive.matMul false true) [⟨⟨0, 0⟩, 0⟩, ⟨⟨0, 0⟩, 0⟩],
  .addNode Primitive.multiply [⟨⟨2, 0⟩, 0⟩, ⟨⟨1, 0⟩, 0⟩],
  .addNode (Primitive.softmax (-1)) [⟨⟨3, 0⟩, 0⟩],
  .addNode (Primitive.matMul false false) [⟨⟨4, 0⟩, 0⟩, ⟨⟨0, 0⟩, 0⟩],
  .addResult ⟨⟨5, 0⟩, 0⟩]

theorem inferred_selfAttention : selfAttention.Inferred := by
  apply Arena.inferred_of_nodeIds
  have hids : selfAttention.nodeIds =
      [⟨0, 0⟩, ⟨1, 0⟩, ⟨2, 0⟩, ⟨3, 0⟩, ⟨4, 0⟩, ⟨5, 0⟩, ⟨6, 0⟩] := by rfl
  rw [hids]
  simp only [List.forall_mem_cons, List.not_mem_nil, false_implies, implies_true, and_true]
  refine ⟨?_, ?_, ?_, ?_, ?_, ?_, ?_⟩ <;> rfl

/-- The island has all four steps, and the scale is copied with them. -/
def selfIsland : Island := ⟨.plain, ⟨5, 0⟩, [⟨2, 0⟩, ⟨3, 0⟩, ⟨4, 0⟩, ⟨5, 0⟩], [⟨1, 0⟩]⟩

/-- What is read as queries, as keys and as values enters as one value. -/
theorem transcript_selfAttention : selfAttention.WellFormed ∧ selfAttention.table = .standard ∧
    selfAttention.Inferred ∧ ∃ r m body φ, Ranking.compute selfAttention = .ok r ∧
      Variant.plain.motif.matchNode selfAttention ⟨5, 0⟩ = some m ∧
      Island.collect .standard r selfAttention .plain m = some selfIsland ∧
      selfIsland.boundary selfAttention = .ok ⟨[⟨⟨0, 0⟩, 0⟩], [⟨⟨5, 0⟩, 0⟩]⟩ ∧
      selfIsland.body selfAttention ⟨[⟨⟨0, 0⟩, 0⟩], [⟨⟨5, 0⟩, 0⟩]⟩ = .ok body ∧
      selfIsland.Transcript selfAttention ⟨[⟨⟨0, 0⟩, 0⟩], [⟨⟨5, 0⟩, 0⟩]⟩ body φ := by
  have hg : selfAttention.WellFormed := Arena.wellFormed_reached _ _
  have ht : selfAttention.table = .standard := by rfl
  have hi := inferred_selfAttention
  have hr : Ranking.compute selfAttention = .ok ⟨[⟨0, 0⟩, ⟨1, 0⟩, ⟨2, 0⟩, ⟨3, 0⟩, ⟨4, 0⟩, ⟨5, 0⟩,
      ⟨6, 0⟩], selfAttention.version⟩ := by cbv
  have hcollect : (Variant.plain.motif.matchNode selfAttention ⟨5, 0⟩).bind (Island.collect
      .standard ⟨[⟨0, 0⟩, ⟨1, 0⟩, ⟨2, 0⟩, ⟨3, 0⟩, ⟨4, 0⟩, ⟨5, 0⟩, ⟨6, 0⟩], selfAttention.version⟩
      selfAttention .plain) = some selfIsland := by cbv
  have hb : selfIsland.boundary selfAttention = .ok ⟨[⟨⟨0, 0⟩, 0⟩], [⟨⟨5, 0⟩, 0⟩]⟩ := by cbv
  obtain ⟨m, hmatch, hcollect⟩ := Option.bind_eq_some_iff.mp hcollect
  obtain ⟨b, body, φ, hb', hbody, -, -, -, h⟩ :=
    Island.exists_transcript hg ht hi hr hmatch hcollect
  obtain rfl := Except.ok.inj (hb'.symm.trans hb)
  exact ⟨hg, ht, hi, _, m, body, φ, hr, hmatch, hcollect, hb, hbody, h⟩

end Attention

end TensorGraph
