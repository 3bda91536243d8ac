import TensorGraph.Proofs.Rewrite.Ledger

/-! # Handles

As long as no slot is released so often that its generations start again, no handle is given out
twice, and a handle whose node was released names nothing ever after: whatever acts through it
fails and leaves the graph.
-/

namespace TensorGraph

open Arena

variable {β : Type} [Described β] {a : Arena β} {x : NodeId}

/-- A staged node, a replacement or a source of the plan goes back to the node. -/
def Plan.Mentions (p : Plan β) (x : NodeId) : Prop :=
  (∃ n ∈ p.staged, ∃ v, .graph v ∈ n.inputs ∧ v.node = x) ∨ x ∈ p.sources ∨
    ∃ r ∈ p.replacements, r.1.node = x ∨ ∃ v, r.2 = .graph v ∧ v.node = x

/-- The operation acts through the handle. -/
def Command.Through (x : NodeId) : Command β → Prop
  | addNode _ inputs => ∃ v ∈ inputs, v.node = x
  | addResult v => v.node = x
  | rename id _ => id = x
  | annotate id _ _ => id = x
  | copyAnnotations sources destinations => x ∈ sources ++ destinations
  | pin id => id = x
  | unpin id => id = x
  | replace v w => v.node = x ∨ w.node = x
  | commit p => p.Mentions x
  | addParameter _ _ => False
  | collectGarbage => False
  | revalidate => False

namespace Arena

/-- Nothing is found under the handle, and every operation through it fails without a change. -/
structure Unknown (a : Arena β) (x : NodeId) : Prop where
  contains : a.contains x = false
  node : a.node? x = none
  kind : a.kind? x = none
  spec : ∀ port, a.spec? (x.output port) = none
  pins : a.pins x = 0
  fails : ∀ c : Command β, c.Through x → ∃ e, c.perform a = (a, .error e)

omit [Described β] in
theorem not_accepted {p : Plan β} (hx : ¬ a.contains x = true) (hp : p.Mentions x) :
    ¬ p.Accepted a := by
  intro ha
  rcases hp with ⟨n, hn, v, hv, rfl⟩ | hs | ⟨r, hr, rfl | ⟨v, hv, rfl⟩⟩
  · obtain ⟨i, hi⟩ := List.mem_iff_getElem?.mp hn
    exact hx (contains_of_hasOutput (ha.operands i n hi _ hv))
  · exact hx (ha.sources x hs)
  · obtain ⟨-, old, new, hold, -⟩ := ha.replacements r hr
    exact hx (contains_of_spec? hold)
  · obtain ⟨-, old, new, -, hnew, -⟩ := ha.replacements r hr
    rw [hv] at hnew
    exact hx (contains_of_spec? hnew)

theorem perform_of_through (hx : ¬ a.contains x = true) {c : Command β} (hc : c.Through x) :
    ∃ e, c.perform a = (a, .error e) := by
  have hfail {α : Type} {r : Except GraphError α} (f : α → Arena β) (hr : ∀ y, r ≠ .ok y) :
      ∃ e, Command.settle a f r = (a, .error e) := by
    cases r with
    | error e => exact ⟨e, rfl⟩
    | ok y => exact absurd rfl (hr y)
  have hupdate (f : Node β → Node β) : a.updateNode x f = .error (.unknownNode x) := if_neg hx
  have hadd {op : Operation β} {inputs : List Value} {v : Value} (hv : v ∈ inputs)
      (hvx : v.node = x) (y : Arena β × NodeId) : a.addNode op inputs ≠ .ok y := by
    intro e
    obtain ⟨specs, -, hspecs, -, -⟩ := addNode_eq_ok_iff.mp e
    have hall : inputs.map a.spec? = specs.map some := specs_eq_ok_iff.mp hspecs
    obtain ⟨s, -, hs⟩ := List.mem_map.mp (hall ▸ List.mem_map_of_mem hv)
    exact hx (hvx ▸ contains_of_spec? hs.symm)
  cases c with
  | addParameter name spec => exact hc.elim
  | addNode op inputs =>
    obtain ⟨v, hv, hvx⟩ := hc
    exact hfail _ (hadd hv hvx)
  | addResult v => exact hfail _ (hadd (List.mem_singleton_self v) hc)
  | rename id name =>
    obtain rfl : id = x := hc
    exact ⟨_, congrArg (Command.settle a _) (hupdate _)⟩
  | annotate id key value =>
    obtain rfl : id = x := hc
    exact ⟨_, congrArg (Command.settle a _) (hupdate _)⟩
  | copyAnnotations sources destinations =>
    refine hfail _ fun y e => ?_
    rw [copyAnnotations_eq] at e
    split at e
    · cases e
    · rename_i hnone
      exact hx (firstGone?_eq_none_iff.mp hnone x hc)
  | pin id =>
    obtain rfl : id = x := hc
    exact hfail _ fun y e => hx (pin_eq_ok_iff.mp e).1.1
  | unpin id =>
    obtain rfl : id = x := hc
    exact hfail _ fun y e => hx (unpin_eq_ok_iff.mp e).1
  | collectGarbage => exact hc.elim
  | replace v w =>
    refine hfail _ fun y e => not_accepted hx ?_ (replace_eq_ok_iff.mp e).1
    refine .inr (.inr ⟨(v, .graph w), by simp [Plan.empty, Plan.replace], ?_⟩)
    exact hc.imp_right fun hw => ⟨w, rfl, hw⟩
  | revalidate => exact hc.elim
  | commit p => exact hfail _ fun y e => not_accepted hx hc (commit_eq_ok_iff.mp e).1

theorem unknown_of_generation (hgen : x.generation ≠ a.generationAt x.index) : a.Unknown x := by
  have hslot : a.slot? x = none := by
    unfold slot?
    cases hs : a.slots[x.index]? with
    | none => rfl
    | some s =>
      have hne : s.generation ≠ x.generation := by
        simpa [generationAt, generation?, hs, eq_comm] using hgen
      simp [Option.filter, hne]
  have hnode : a.node? x = none := by rw [node?, hslot, Option.bind_none]
  have hcontains : ¬ a.contains x = true := by simp [contains, hnode]
  exact {
    contains := by simpa using hcontains
    node := hnode
    kind := by rw [kind?, hnode, Option.map_none]
    spec := fun port => by simp [spec?, output?, NodeId.output, hnode]
    pins := by rw [Arena.pins, hslot, Option.map_none, Option.getD_none]
    fails := fun c hc => perform_of_through hcontains hc }

theorem dropped_append (first second : List (Command β)) :
    a.dropped (first ++ second) = a.dropped first ++ (a.after first).dropped second := by
  induction first generalizing a with
  | nil => rfl
  | cons c first ih => rw [List.cons_append, dropped, ih, dropped, List.append_assoc, after_cons]

/-- Along a history no handle is given out twice, the live nodes have handles that were given out,
and a handle whose node was released is unknown ever after. -/
theorem handles_of_history (table : CapabilityTable) (history : List (Command β))
    (hbound : ∀ i, releases ((empty table).dropped history) i < UInt32.size) :
    ((empty table).issued history).Nodup ∧
    (∀ x, (reached table history).contains x = true → x ∈ (empty table).issued history) ∧
    ∀ before after, history = before ++ after →
      ∀ x ∈ (empty table).issued before, ¬ (reached table before).contains x = true →
        (reached table history).Unknown x := by
  have hledger := (Ledger.start table).after history (by simpa using hbound)
  rw [List.nil_append, List.nil_append] at hledger
  refine ⟨hledger.nodup, hledger.live, ?_⟩
  rintro before after rfl x hx hgone
  have hsplit := dropped_append (a := empty table) before after
  have hprefix : ∀ i, releases ([] ++ (empty table).dropped before) i < UInt32.size := fun i => by
    have := hbound i
    rw [hsplit, releases_append] at this
    rw [List.nil_append]
    omega
  have hexpired := ((Ledger.start table).after before hprefix).expired x (by simpa using hx) hgone
  rw [List.nil_append] at hexpired
  rw [hsplit] at hledger hbound
  exact unknown_of_generation (hledger.generation_ne (hexpired.append _) (hbound _))

end Arena

end TensorGraph
