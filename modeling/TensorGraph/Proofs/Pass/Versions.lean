import TensorGraph.Proofs.Attention.Convexity
import TensorGraph.Proofs.Pass.FixedPoint
import TensorGraph.Proofs.Pass.Requests
import TensorGraph.Proofs.Rewrite.Content

/-! # Versions and requests

The version tells whether the contents of a graph are what they were, after an operation and after
the run of a pass or of a pipeline. No run renews inference, so that the one exception is left to
clients. Edges are told of without exception, and so a ranking that is not stale ranks the graph
as it is.
-/

namespace TensorGraph

open Arena

variable {g h : Graph}

/-! ### Runs do not renew inference -/

theorem PatternPass.revalidate_not_mem_commands (p : PatternPass) (g : Graph) :
    .revalidate ∉ p.commands g := by
  have hcommits (v : PatternPass.Visit) : .revalidate ∉ v.commits p := by
    unfold PatternPass.Visit.commits
    split
    · simp
    · split <;> simp
  have hcommands (v : PatternPass.Visit) : .revalidate ∉ v.commands p := by
    unfold PatternPass.Visit.commands
    split
    · simp
    · simp
    · simp [hcommits]
  simp [PatternPass.commands, hcommands]

theorem Attention.revalidate_not_mem_fusion (c : Attention.Config) (g : Graph)
    (i : Attention.Island) : .revalidate ∉ Attention.fusion c g i := by
  unfold Attention.fusion
  split
  · simp
  · split
    · split <;> simp
    · simp

theorem Attention.revalidate_not_mem_fusions (c : Attention.Config) (is : List Attention.Island)
    (r : Ranking) (g : Graph) : .revalidate ∉ Attention.fusions c is r g := by
  induction is generalizing r g with
  | nil => simp [Attention.fusions]
  | cons i is ih =>
    unfold Attention.fusions
    split
    · simp
    · split
      · rw [List.mem_append, not_or]
        refine ⟨revalidate_not_mem_fusion c g i, ?_⟩
        split
        · simp
        · exact ih _ _
        · exact ih _ _
      · exact ih _ _

namespace Routine

theorem revalidate_not_mem_commands (r : Routine) (g : Graph) : .revalidate ∉ r.commands g := by
  induction r generalizing g with
  | pattern p => exact p.revalidate_not_mem_commands g
  | attention c =>
    unfold commands Attention.commands
    split
    · simp
    · exact Attention.revalidate_not_mem_fusions c _ _ g
  | both name first second hfirst hsecond =>
    rw [commands, List.mem_append, not_or]
    refine ⟨hfirst g, ?_⟩
    split
    · simp
    · exact hsecond _

theorem revalidate_not_mem_sweepCommands (rs : List Routine) (g : Graph) :
    .revalidate ∉ sweepCommands rs g := by
  induction rs generalizing g with
  | nil => simp [sweepCommands]
  | cons r rs ih =>
    rw [sweepCommands, List.mem_append, not_or]
    refine ⟨r.revalidate_not_mem_commands g, ?_⟩
    split
    · simp
    · exact ih _

theorem revalidate_not_mem_iterateCommands (rs : List Routine) (more : Nat) (g : Graph) :
    .revalidate ∉ iterateCommands rs more g := by
  induction more generalizing g with
  | zero =>
    rw [iterateCommands, List.mem_append, not_or]
    refine ⟨revalidate_not_mem_sweepCommands rs g, ?_⟩
    split
    · simp
    · split <;> simp_all
  | succ more ih =>
    rw [iterateCommands, List.mem_append, not_or]
    refine ⟨revalidate_not_mem_sweepCommands rs g, ?_⟩
    split
    · simp
    · split <;> simp_all

end Routine

/-! ### What the version tells -/

theorem Arena.advances_after (g : Graph) {history : List (Command Body)}
    (hh : .revalidate ∉ history) : Advances content? g (g.after history) := by
  induction history generalizing g with
  | nil => exact .refl g
  | cons c history ih =>
    obtain ⟨hc, hh⟩ := not_or.mp (mt List.mem_cons.mpr hh)
    exact (Command.advances g (Ne.symm hc)).trans (ih _ hh)

theorem Arena.WellFormed.advances_after (hg : g.WellFormed) (history : List (Command Body)) :
    Advances wiring? g (g.after history) := by
  induction history generalizing g with
  | nil => exact .refl g
  | cons c history ih =>
    have hstep : Advances wiring? g (c.perform g).1 :=
      (Command.perform_cases hg c).imp_right fun h => ⟨h.1.symm, h.2.1⟩
    exact hstep.trans (ih (hg.perform c))

namespace Request

theorem perform_cases (hg : g.WellFormed) (r : Request) :
    g.version < (r.perform g).version ∨
      (r.perform g).version = g.version ∧ (r.perform g).wiring? = g.wiring? ∧
        ((r.perform g).content? ≠ g.content? ↔ r = .command .revalidate ∧ g.Strands) := by
  have hquiet (hr : .revalidate ∉ r.commands g) (hne : r ≠ .command .revalidate) :
      g.version < (r.perform g).version ∨
        (r.perform g).version = g.version ∧ (r.perform g).wiring? = g.wiring? ∧
          ((r.perform g).content? ≠ g.content? ↔ r = .command .revalidate ∧ g.Strands) := by
    rw [perform_eq_after]
    have hadvances := advances_after g hr
    refine hadvances.imp_right ?_
    rintro ⟨he, hcontent⟩
    refine ⟨he.symm, hadvances.wiring.view_eq he.symm, ?_⟩
    simp [hne, hcontent]
  cases r with
  | command c =>
    have hcommand := Command.perform_cases hg c
    simpa [perform] using hcommand
  | run r => exact hquiet (r.revalidate_not_mem_commands g) nofun
  | pipeline rs maxSweeps =>
    exact hquiet (Routine.revalidate_not_mem_iterateCommands rs _ g) nofun

/-- No request lowers the version. If the version is what it was, then so are the live nodes with
their operations, their inputs and what reads them, and so are the specs of all outputs, unless
renewed inference failed after it had revised a node. -/
theorem version_tells (hg : g.WellFormed) (r : Request) :
    g.version ≤ (r.perform g).version ∧
    ((r.perform g).version = g.version →
      (r.perform g).wiring? = g.wiring? ∧
      ((r.perform g).content? = g.content? ↔ ¬ (r = .command .revalidate ∧ g.Strands))) := by
  rcases perform_cases hg r with hlt | ⟨he, hwiring, hcontent⟩
  · exact ⟨hlt.le, fun he => absurd he hlt.ne'⟩
  · exact ⟨he.ge, fun _ => ⟨hwiring, not_iff_not.mp (by simpa using hcontent)⟩⟩

/-- A sum reads another, and a parameter of the first was replaced by one of another length. -/
def stranding : List (Command Body) := [
  .addParameter "a" (Pipeline.f32 [2]),
  .addParameter "b" (Pipeline.f32 [3]),
  .addParameter "c" (Pipeline.f32 [2]),
  .addNode Primitive.add [Pipeline.first 0, Pipeline.first 0],
  .addNode Primitive.add [Pipeline.first 3, Pipeline.first 2],
  .replace (Pipeline.first 0) (Pipeline.first 1)]

def stranded : Graph := reached .standard stranding

theorem wellFormed_stranded : stranded.WellFormed := wellFormed_reached _ _

theorem version_stranded : stranded.revalidate.1.version = stranded.version := by cbv

/-- A replacement of a value by itself fails, and the contents stay with the version. -/
theorem version_tells_rejected :
    let r : Request := .command (.replace (Pipeline.first 3) (Pipeline.first 3))
    stranded.WellFormed ∧ (r.perform stranded).version = stranded.version ∧
      (r.perform stranded).content? = stranded.content? := by
  intro r
  have hversion : (r.perform stranded).version = stranded.version := by cbv
  obtain ⟨-, hcontent⟩ := (version_tells wellFormed_stranded r).2 hversion
  exact ⟨wellFormed_stranded, hversion, hcontent.mpr (by simp [r])⟩

/-- The first sum is revised before the second one fails, and the version does not tell. -/
theorem version_same_stranded :
    let r : Request := .command .revalidate
    stranded.WellFormed ∧ (∃ e, stranded.revalidate.2 = .error e) ∧
      (r.perform stranded).version = stranded.version ∧
      stranded.spec? (Pipeline.first 3) = some (Pipeline.f32 [2]) ∧
      (r.perform stranded).spec? (Pipeline.first 3) = some (Pipeline.f32 [3]) ∧
      (r.perform stranded).content? ≠ stranded.content? := by
  intro r
  have hbefore : stranded.spec? (Pipeline.first 3) = some (Pipeline.f32 [2]) := by cbv
  have hafter : (r.perform stranded).spec? (Pipeline.first 3) = some (Pipeline.f32 [3]) := by cbv
  have hfails : ∃ e, stranded.revalidate.2 = .error e := by
    have hnone : stranded.revalidate.2.toOption = none := by cbv
    cases h : stranded.revalidate.2 with
    | error e => exact ⟨e, rfl⟩
    | ok u =>
      rw [h] at hnone
      cases hnone
  refine ⟨wellFormed_stranded, hfails, version_stranded, hbefore, hafter, fun hcontent => ?_⟩
  rw [spec?_eq_content?, hcontent, ← spec?_eq_content?, hbefore] at hafter
  exact absurd (congrArg (Option.map fun s => s.shape.elementCount?) hafter) (by decide)

end Request

/-! ### Rankings -/

theorem Ranking.Ranks.congr {r : Ranking} (hr : r.Ranks g) (hw : h.wiring? = g.wiring?) :
    r.Ranks h := by
  have hlive (x : NodeId) : x ∈ g.nodeIds ↔ x ∈ h.nodeIds := by
    rw [mem_nodeIds_iff_contains, mem_nodeIds_iff_contains, contains_eq_wiring?,
      contains_eq_wiring?, hw]
  refine ⟨?_, hr.perm.trans ((List.perm_ext_iff_of_nodup nodup_nodeIds nodup_nodeIds).mpr hlive)⟩
  intro before x after he y hy
  exact hr.ordered before x after he y (producers_of_wiring? hw ▸ hy)

/-- The ranking of a graph, as long as it is not stale, has every live node once, and ranks every
producer below what reads it, whatever was asked of the graph in the meantime. -/
theorem Ranking.valid_of_not_stale (hg : g.WellFormed) :
    ∃ r, Ranking.compute g = .ok r ∧ ∀ rs : List Request,
      let h := Request.performAll rs g
      r.isStale h = false →
        r.order.Nodup ∧ (∀ id, id ∈ r.order ↔ h.contains id = true) ∧
        ∀ x y, h.Reads x y → ∃ i j, r.rank? y = some i ∧ r.rank? x = some j ∧ i < j := by
  obtain ⟨r, hcompute, hranks, hversion⟩ := Ranking.compute_eq_ok hg
  refine ⟨r, hcompute, fun rs => ?_⟩
  intro h hstale
  have hadvances : Advances wiring? g h := by
    rw [show h = g.after _ from Request.performAll_eq_after rs g]
    exact hg.advances_after _
  have hsame : h.version = g.version := by
    have he : r.version = h.version := by simpa [Ranking.isStale] using hstale
    exact he.symm.trans hversion
  have hr : r.Ranks h := hranks.congr (hadvances.view_eq hsame)
  refine ⟨hr.nodup, fun id => hr.mem_order_iff, fun x y hread => ?_⟩
  have hx : x ∈ r.order := hr.mem_order_iff.mpr (contains_of_reads_left hread)
  have hy : y ∈ r.order := hr.ordered.mem hx hread
  exact ⟨_, _, Ranking.rank?_eq hy, Ranking.rank?_eq hx, hr.rankedBy x y hread⟩

/-- Renewed inference that fails leaves the edges, and a ranking from before it stays valid. -/
theorem Ranking.valid_stranded :
    let h := Request.performAll [.command .revalidate] Request.stranded
    ∃ r, Ranking.compute Request.stranded = .ok r ∧ r.isStale h = false ∧
      ∀ x y, h.Reads x y → ∃ i j, r.rank? y = some i ∧ r.rank? x = some j ∧ i < j := by
  intro h
  obtain ⟨r, hcompute, hvalid⟩ := Ranking.valid_of_not_stale Request.wellFormed_stranded
  obtain ⟨r', hcompute', -, hversion⟩ := Ranking.compute_eq_ok Request.wellFormed_stranded
  obtain rfl := Except.ok.inj (hcompute.symm.trans hcompute')
  have hsame : h.version = Request.stranded.version := Request.version_stranded
  have hstale : r.isStale h = false := by simp [Ranking.isStale, hversion, hsame]
  exact ⟨r, hcompute, hstale, (hvalid [.command .revalidate] hstale).2.2⟩

end TensorGraph
