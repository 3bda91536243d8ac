import TensorGraph.Proofs.Pass.FixedPoint
import TensorGraph.Proofs.Pass.Requests
import TensorGraph.Proofs.Rewrite.Handles

/-! # Handles and requests

Passes put nodes into slots and release nodes by the operations that clients have, and so what
holds of the handles of a history holds of those of any requests.
-/

namespace TensorGraph.Request

open Arena

/-- Whatever is asked of an empty graph, and whether or not it succeeds: as long as no slot is
released 2 ^ 32 times, no handle is given out twice, the live nodes have handles that were given
out, and a handle whose node was released at any time is unknown ever after. -/
theorem handles_never_alias (table : CapabilityTable) (rs : List Request)
    (hbound : ∀ i, releases ((empty table).dropped (commandsAll rs (empty table))) i < 2 ^ 32) :
    ((empty table).issued (commandsAll rs (empty table))).Nodup ∧
    (∀ x, (performAll rs (empty table)).contains x = true →
      x ∈ (empty table).issued (commandsAll rs (empty table))) ∧
    ∀ before after, commandsAll rs (empty table) = before ++ after →
      ∀ x ∈ (empty table).issued before, ¬ ((empty table).after before).contains x = true →
        (performAll rs (empty table)).Unknown x := by
  rw [performAll_eq_after]
  exact handles_of_history table _ hbound

/-- A node that only a pin keeps is released, and another one takes its slot. -/
def recycling : List Request := [
  .command (.addParameter "x" (Pipeline.f32 [2, 3])),
  .command (.addNode Primitive.add [Pipeline.first 0, Pipeline.first 0]),
  .command (.pin ⟨1, 0⟩),
  .command (.unpin ⟨1, 0⟩),
  .command (.addNode Primitive.add [Pipeline.first 0, Pipeline.first 0])]

theorem recycled_handle_unknown :
    (∀ i, releases ((empty .standard).dropped (commandsAll recycling (empty .standard))) i <
      2 ^ 32) ∧
    (performAll recycling (empty .standard)).contains ⟨1, 1⟩ = true ∧
    (performAll recycling (empty .standard)).Unknown ⟨1, 0⟩ := by
  have hdropped : (empty .standard).dropped (commandsAll recycling (empty .standard)) =
      [⟨1, 0⟩] := by cbv
  have hbound : ∀ i, releases ((empty .standard).dropped
      (commandsAll recycling (empty .standard))) i < 2 ^ 32 := by
    intro i
    rw [hdropped]
    have hle : releases [⟨1, 0⟩] i ≤ 1 := List.countP_le_length
    omega
  have hissued : (empty .standard).issued (commandsAll recycling (empty .standard)) =
      [⟨0, 0⟩, ⟨1, 0⟩, ⟨1, 1⟩] := by cbv
  have hgone : (performAll recycling (empty .standard)).contains ⟨1, 0⟩ = false := by cbv
  refine ⟨hbound, by cbv, ?_⟩
  refine (handles_never_alias .standard recycling hbound).2.2 _ [] (List.append_nil _).symm
    ⟨1, 0⟩ (by simp [hissued]) ?_
  rw [← performAll_eq_after, hgone]
  exact Bool.false_ne_true

end TensorGraph.Request
