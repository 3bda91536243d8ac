import TensorGraph.Proofs.Pass.FixedPoint
import TensorGraph.Proofs.Pass.History
import TensorGraph.Proofs.Rewrite.Anchors

/-! # Which anchors are listed

Both anchor lists are exact as long as no commit inserts a parameter or a result. Such a commit
leaves what it inserts off the lists for good.
-/

namespace TensorGraph

open Arena

variable {β : Type}

/-- Every live anchor of a kind is on its list once, and nothing else is on it. -/
def Arena.Lists (a : Arena β) (kind : Kind) : Prop :=
  ∀ id, (a.listed kind).count id = if a.kind? id = some kind then 1 else 0

variable {a : Arena β} {kind : Kind}

theorem Arena.lists_iff (ha : a.WellFormed) (hnodup : (a.listed kind).Nodup) :
    a.Lists kind ↔ ∀ id, ¬ a.Omits kind id := by
  refine forall_congr' fun id => ?_
  rw [hnodup.count]
  by_cases hid : id ∈ a.listed kind
  · simp [hid, ha.kind?_of_listed hid, Omits]
  · by_cases hk : a.kind? id = some kind <;> simp [hid, hk, Omits]

/-- An accepted commit inserts something of a kind exactly if something of that kind is staged. -/
theorem exists_inserts_iff (ha : a.WellFormed) {p : Plan β} {done : Arena β × Commit}
    (e : a.commit p = .ok done) :
    (∃ id, (Command.commit p).Inserts a kind id) ↔ ∃ n ∈ p.staged, n.op.kind = kind := by
  obtain ⟨hp, rfl⟩ := commit_eq_ok_iff.mp e
  constructor
  · rintro ⟨id, -, -, i, n, hn, hkind, -⟩
    exact ⟨n, List.mem_of_getElem? hn, hkind⟩
  · rintro ⟨n, hmem, hkind⟩
    obtain ⟨i, hn⟩ := List.mem_iff_getElem?.mp hmem
    have hlt : i < (a.rewire p).2.length :=
      (rewired_rewire ha hp).length ▸ (List.getElem?_eq_some_iff.mp hn).1
    refine ⟨(a.rewire p).2[i], _, e, i, n, hn, hkind, ?_⟩
    rw [apply_eq]
    exact List.getElem?_eq_getElem hlt

variable [Described β]

theorem lists_reached_iff (table : CapabilityTable) (history : List (Command β))
    (hk : kind.isAnchor = true) : (reached table history).Lists kind ↔
      ∀ before p after done, history = before ++ .commit p :: after →
        (reached table before).commit p = .ok done → ∀ n ∈ p.staged, n.op.kind ≠ kind := by
  rw [lists_iff (wellFormed_reached table history) (nodup_listed_reached table history hk)]
  constructor
  · intro hall before p after done he hdone n hn hkind
    obtain ⟨id, hid⟩ :=
      (exists_inserts_iff (wellFormed_reached table before) hdone).mpr ⟨n, hn, hkind⟩
    exact hall id ((omits_reached_iff table history hk).mpr ⟨before, _, after, he, hid⟩)
  · intro hall id hid
    obtain ⟨before, c, after, he, hc⟩ := (omits_reached_iff table history hk).mp hid
    cases c with
    | commit p =>
      have hinserts : ∃ id, (Command.commit p).Inserts (reached table before) kind id := ⟨id, hc⟩
      obtain ⟨done, hdone, -⟩ := hc
      obtain ⟨n, hn, hkind⟩ :=
        (exists_inserts_iff (wellFormed_reached table before) hdone).mp hinserts
      exact hall before p after done he hdone n hn hkind
    | _ => exact hc

/-- On every graph that a client can reach, by single edits and by runs of passes, the lists of
parameters and results name live nodes of their kind only, and none of them twice. They name all
of these nodes exactly if no commit on the way inserted a node of the kind. -/
theorem anchor_lists (table : CapabilityTable) (history : List (Command Body)) :
    let g := reached table history
    (∀ id, g.parameters.count id ≤ if g.kind? id = some .parameter then 1 else 0) ∧
    (∀ id, g.results.count id ≤ if g.kind? id = some .result then 1 else 0) ∧
    ((∀ id, g.parameters.count id = if g.kind? id = some .parameter then 1 else 0) ↔
      ∀ before p after done, history = before ++ .commit p :: after →
        (reached table before).commit p = .ok done → ∀ n ∈ p.staged, n.op.kind ≠ .parameter) ∧
    ((∀ id, g.results.count id = if g.kind? id = some .result then 1 else 0) ↔
      ∀ before p after done, history = before ++ .commit p :: after →
        (reached table before).commit p = .ok done → ∀ n ∈ p.staged, n.op.kind ≠ .result) ∧
    (∀ p : PatternPass, ReachedAfter table history (p.run g).1) ∧
    (∀ c, ReachedAfter table history (Attention.run c g).1) ∧
    ∀ (bs : List Builtin) maxSweeps,
      ReachedAfter table history ((Pipeline.mk (bs.map Builtin.pass) maxSweeps).run g).1 := by
  intro g
  have hg : g.WellFormed := wellFormed_reached table history
  have hstart : ReachedAfter table history g := ⟨[], by rw [List.append_nil]⟩
  have hatMost (kind : Kind) (hk : kind.isAnchor = true) (id : NodeId) :
      (g.listed kind).count id ≤ if g.kind? id = some kind then 1 else 0 := by
    by_cases hid : id ∈ g.listed kind
    · rw [if_pos (hg.kind?_of_listed hid)]
      exact List.nodup_iff_count_le_one.mp (nodup_listed_reached table history hk) id
    · rw [List.count_eq_zero_of_not_mem hid]
      exact Nat.zero_le _
  have hlists (kind : Kind) (hk : kind.isAnchor = true) := lists_reached_iff table history hk
  refine ⟨hatMost .parameter rfl, hatMost .result rfl, hlists .parameter rfl, hlists .result rfl,
    fun p => ?_, fun c => ?_, fun bs n => ?_⟩
  · exact p.preserves_reachedAfter g hstart
  · exact Attention.preserves_reachedAfter c g hstart
  · refine Pipeline.run_preserves (fun p hp => ?_) hstart n
    obtain ⟨b, -, rfl⟩ := List.mem_map.mp hp
    exact b.preserves_reachedAfter

/-- A result that was staged and committed is live, and no list names it. -/
theorem staged_result_not_listed :
    let parameter : Command Body := .addParameter "x" (Pipeline.f32 [2])
    ∃ p, Plan.empty.make (reached .standard [parameter]) Primitive.result
        [.graph (Pipeline.first 0)] = .ok (p, 0) ∧
      (reached .standard [parameter, .commit p]).kind? ⟨1, 0⟩ = some .result ∧
      (reached .standard [parameter, .commit p]).results.count ⟨1, 0⟩ = 0 := by
  refine ⟨⟨[⟨Primitive.result, [.graph (Pipeline.first 0)], [], "", .empty⟩], [], []⟩, ?_, ?_, ?_⟩
  · cbv
  · cbv
  · cbv

/-- Without staged anchors both lists are exact; here a reshape takes the place of another. -/
theorem lists_after_reshape :
    let history : List (Command Body) := [
      .addParameter "x" (Pipeline.f32 [2]),
      .addNode (Primitive.reshape [2] false) [Pipeline.first 0],
      .addResult (Pipeline.first 1),
      .commit ⟨[⟨Primitive.reshape [2] true, [.graph (Pipeline.first 0)], [Pipeline.f32 [2]], "",
        .empty⟩], [(Pipeline.first 1, .staged 0 0)], []⟩]
    (∀ before p after done, history = before ++ .commit p :: after →
      (reached .standard before).commit p = .ok done → ∀ n ∈ p.staged, n.op.kind ≠ .result) ∧
    ∀ id, (reached .standard history).results.count id =
      if (reached .standard history).kind? id = some .result then 1 else 0 := by
  intro history
  have hstaged : ∀ before p after done, history = before ++ .commit p :: after →
      (reached .standard before).commit p = .ok done → ∀ n ∈ p.staged, n.op.kind ≠ .result := by
    intro before p after done he _ n hn
    have hmem : Command.commit p ∈ history := he ▸ by simp
    have hp : p = ⟨[⟨Primitive.reshape [2] true, [.graph (Pipeline.first 0)], [Pipeline.f32 [2]],
        "", .empty⟩], [(Pipeline.first 1, .staged 0 0)], []⟩ := by
      simpa [history] using hmem
    obtain rfl : n = _ := List.mem_singleton.mp (hp ▸ hn)
    decide
  exact ⟨hstaged, (anchor_lists .standard history).2.2.2.1.mpr hstaged⟩

end TensorGraph
