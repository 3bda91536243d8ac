import TensorGraph.Proofs.Arena.Precedence
import TensorGraph.Proofs.Rewrite.Access

/-! # Histories

The operations by which a client builds and changes a graph. Whatever their order, and whether or
not they succeed, every graph that they lead to from the empty one is well formed.
-/

namespace TensorGraph

/-- An operation of a client. A plan may have been made for another graph, or for an earlier
state of this one. -/
inductive Command (β : Type) where
  | addParameter (name : String) (spec : Spec)
  | addNode (op : Operation β) (inputs : List Value)
  | addResult (v : Value)
  | rename (id : NodeId) (name : String)
  | annotate (id : NodeId) (key value : String)
  | copyAnnotations (sources destinations : List NodeId)
  | pin (id : NodeId)
  | unpin (id : NodeId)
  | collectGarbage
  | replace (v w : Value)
  | revalidate
  | commit (p : Plan β)

variable {β : Type} [Described β]

namespace Command

/-- The graph after an operation that fails without a change. -/
def settle {α : Type} (a : Arena β) (f : α → Arena β) (r : Except GraphError α) :
    Arena β × Except GraphError Unit :=
  match r with
  | .ok x => (f x, .ok ())
  | .error e => (a, .error e)

/-- The graph after an operation, and whether the operation succeeded. -/
def perform (a : Arena β) : Command β → Arena β × Except GraphError Unit
  | addParameter name spec => ((a.addParameter name spec).1, .ok ())
  | addNode op inputs => settle a Prod.fst (a.addNode op inputs)
  | addResult v => settle a Prod.fst (a.addResult v)
  | rename id name => settle a (fun b => b) (a.rename id name)
  | annotate id key value => settle a (fun b => b) (a.annotate id key value)
  | copyAnnotations sources destinations =>
    settle a (fun b => b) (a.copyAnnotations sources destinations)
  | pin id => settle a (fun b => b) (a.pin id)
  | unpin id => settle a Prod.fst (a.unpin id)
  | collectGarbage => (a.collectGarbage.1, .ok ())
  | replace v w => settle a Prod.fst (a.replace v w)
  | revalidate => a.revalidate
  | commit p => settle a Prod.fst (a.commit p)

omit [Described β] in
theorem settle_induction {α : Type} {a : Arena β} {P : Arena β → Prop} {f : α → Arena β}
    {r : Except GraphError α} (ha : P a) (hr : ∀ y, r = .ok y → P (f y)) :
    P (settle a f r).1 := by
  cases r with
  | error e => exact ha
  | ok y => exact hr y rfl

end Command

namespace Arena

variable {a b : Arena β} {id : NodeId} {n : Node β}

theorem addNode_eq_ok_iff {op : Operation β} {inputs : List Value} {done : Arena β × NodeId} :
    a.addNode op inputs = .ok done ↔ ∃ specs outputs, a.specs inputs = .ok specs ∧
      a.infer op specs = .ok outputs ∧ a.addVerbatim op inputs outputs = .ok done := by
  simp only [Arena.addNode, bind_eq_ok_iff, exists_and_left]

theorem WellFormed.addNode (h : a.WellFormed) {op : Operation β} {inputs : List Value}
    (e : a.addNode op inputs = .ok (b, id)) : b.WellFormed := by
  obtain ⟨specs, outputs, -, -, e⟩ := addNode_eq_ok_iff.mp e
  exact h.addVerbatim e

omit [Described β] in
theorem WellFormed.updateNode (h : a.WellFormed) {f : Node β → Node β}
    (hf : ∀ n, KeepsWiring n (f n)) (e : a.updateNode id f = .ok b) : b.WellFormed := by
  obtain ⟨-, rfl⟩ := updateNode_eq_ok_iff.mp e
  exact h.modifyNode fun _ n _ _ => hf n

omit [Described β] in
theorem WellFormed.rename (h : a.WellFormed) {name : String} (e : a.rename id name = .ok b) :
    b.WellFormed := by
  rw [Arena.rename] at e
  refine h.updateNode (fun n => ?_) e
  exact ⟨rfl, rfl, rfl⟩

omit [Described β] in
theorem WellFormed.annotate (h : a.WellFormed) {key value : String}
    (e : a.annotate id key value = .ok b) : b.WellFormed := by
  rw [Arena.annotate] at e
  refine h.updateNode (fun n => ?_) e
  exact ⟨rfl, rfl, rfl⟩

omit [Described β] in
theorem WellFormed.copyAnnotations (h : a.WellFormed) {sources destinations : List NodeId}
    (e : a.copyAnnotations sources destinations = .ok b) : b.WellFormed := by
  refine copyAnnotations_induction h (fun c merged id hc => hc.modifyNode fun _ n _ _ => ?_) e
  exact ⟨rfl, rfl, rfl⟩

theorem inferNode_eq_ok {specs : List Spec} (e : a.inferNode id = .ok specs) :
    ∃ n inputs, a.node? id = some n ∧ a.specs n.inputs = .ok inputs ∧
      a.infer n.op inputs = .ok specs ∧ specs.length = n.outputs.length := by
  obtain ⟨n, hn, e⟩ := bind_eq_ok_iff.mp e
  obtain ⟨inputs, hin, e⟩ := bind_eq_ok_iff.mp e
  obtain ⟨outputs, hout, e⟩ := bind_eq_ok_iff.mp e
  split at e
  · rename_i hlen
    obtain rfl := Except.ok.inj e
    exact ⟨n, inputs, node_eq_ok_iff.mp hn, hin, hout, hlen⟩
  · cases e

omit [Described β] in
theorem map_uses_zipWith {outputs : List Output} {specs : List Spec}
    (h : outputs.length ≤ specs.length) :
    (outputs.zipWith (fun o spec => { o with spec }) specs).map Output.uses =
      outputs.map Output.uses := by
  rw [List.map_zipWith]
  induction outputs generalizing specs with
  | nil => rfl
  | cons o outputs ih =>
    cases specs with
    | nil => exact absurd h (by simp)
    | cons spec specs => exact congrArg (o.uses :: ·) (ih (Nat.le_of_succ_le_succ h))

omit [Described β] in
theorem WellFormed.setSpecs (h : a.WellFormed) {specs : List Spec} (hid : a.node? id = some n)
    (hlen : specs.length = n.outputs.length) : (a.setSpecs id specs).WellFormed :=
  h.modifyLive hid ⟨map_uses_zipWith hlen.ge, rfl, rfl⟩

theorem WellFormed.inferAll (h : a.WellFormed) (ids : List NodeId) :
    (a.inferAll ids).1.WellFormed := by
  induction ids generalizing a with
  | nil => exact h
  | cons id ids ih =>
    unfold Arena.inferAll
    split
    · rename_i specs e
      obtain ⟨n, -, hn, -, -, hlen⟩ := inferNode_eq_ok e
      exact ih (h.setSpecs hn hlen)
    · exact h

theorem WellFormed.revalidate (h : a.WellFormed) : a.revalidate.1.WellFormed := by
  unfold Arena.revalidate
  split
  · exact h
  · rename_i order _
    have hwf := h.inferAll order
    split
    · rename_i b e
      rw [e] at hwf
      exact hwf.bump
    · rename_i b _ e
      rw [e] at hwf
      exact hwf

/-- Every operation keeps a graph well formed, whether or not it succeeds. -/
theorem WellFormed.perform (h : a.WellFormed) (c : Command β) : (c.perform a).1.WellFormed := by
  cases c with
  | addParameter name spec => exact h.addParameter name spec
  | addNode op inputs => exact Command.settle_induction h fun _ e => h.addNode e
  | addResult v => exact Command.settle_induction h fun _ e => h.addNode e
  | rename id name => exact Command.settle_induction h fun _ e => h.rename e
  | annotate id key value => exact Command.settle_induction h fun _ e => h.annotate e
  | copyAnnotations sources destinations =>
    exact Command.settle_induction h fun _ e => h.copyAnnotations e
  | pin id => exact Command.settle_induction h fun _ e => h.pin e
  | unpin id => exact Command.settle_induction h fun _ e => h.unpin e
  | collectGarbage => exact (releases_collectGarbage a).wellFormed h
  | replace v w => exact Command.settle_induction h fun _ e => h.replace e
  | revalidate => exact h.revalidate
  | commit p => exact Command.settle_induction h fun _ e => h.commit e

def reached (table : CapabilityTable) (history : List (Command β)) : Arena β :=
  history.foldl (fun a c => (c.perform a).1) (.empty table)

theorem reached_concat (table : CapabilityTable) (history : List (Command β)) (c : Command β) :
    reached table (history ++ [c]) = (c.perform (reached table history)).1 := by
  rw [reached, List.foldl_append]
  rfl

theorem wellFormed_reached (table : CapabilityTable) (history : List (Command β)) :
    (reached table history).WellFormed := by
  have run {a : Arena β} (h : a.WellFormed) :
      (history.foldl (fun a c => (c.perform a).1) a).WellFormed := by
    induction history generalizing a with
    | nil => exact h
    | cons c history ih => exact ih (h.perform c)
  exact run (wellFormed_empty table)

def after (a : Arena β) (history : List (Command β)) : Arena β :=
  history.foldl (fun a c => (c.perform a).1) a

@[simp] theorem after_nil : a.after [] = a := rfl

@[simp] theorem after_cons (c : Command β) (history : List (Command β)) :
    a.after (c :: history) = (c.perform a).1.after history := rfl

@[simp] theorem after_append (first second : List (Command β)) :
    a.after (first ++ second) = (a.after first).after second := List.foldl_append

/-- Every graph that a history leads to is valid, down to each use, each anchor and the count of
its nodes. A commit there either fails without a change, or misses nothing while it is applied. -/
theorem reached_valid (table : CapabilityTable) (history : List (Command β)) :
    let a := reached table history
    a.validate = .ok () ∧
    (∀ u v, a.producer? u = some v → a.hasOutput v = true) ∧
    (∀ v u, (a.uses v).count u = if a.producer? u = some v then 1 else 0) ∧
    (∀ id ∈ a.parameters ++ a.results, a.contains id = true) ∧
    a.Acyclic ∧
    a.live = a.occupied ∧
    ∀ p : Plan β,
      (∀ e, a.commit p = .error e → (Command.commit p).perform a = (a, .error e)) ∧
      ∀ done, a.commit p = .ok done → a.checkedApply? p = some done := by
  intro a
  have h : a.WellFormed := wellFormed_reached table history
  refine ⟨h.validate, fun u v hu => h.linked.hasOutput hu, h.linked, fun id hid => ?_, h.acyclic,
    h.live, fun p => ⟨fun e he => ?_, fun done he => ?_⟩⟩
  · obtain ⟨kind, hk⟩ : ∃ kind, a.kind? id = some kind :=
      (List.mem_append.mp hid).elim (fun hp => ⟨_, h.parameters id hp⟩)
        fun hr => ⟨_, h.results id hr⟩
    obtain ⟨n, hn, -⟩ := kind?_eq_some_iff.mp hk
    exact contains_of_node? hn
  · rw [Command.perform, he, Command.settle]
  · obtain ⟨hp, rfl⟩ := commit_eq_ok_iff.mp he
    exact checkedApply?_eq_some h hp

end Arena

end TensorGraph
