import Mathlib.Data.List.Nodup
import TensorGraph.Proofs.Attention.Run
import TensorGraph.Proofs.Pass.Builtin

/-! # Exclusive islands

Which islands are chosen, and what the choice means for a run. An island is left out only because
of one that is chosen, so those that were left out themselves are in the way of none. As the chosen
islands share no node, none is moved into two bodies, however the graph changes between the fusions.
-/

namespace TensorGraph.Attention

variable {g h : Graph} {c : Config} {r : Ranking} {islands : List Island}
variable {x y z : Candidate} {earlier rest : List Candidate}

/-! ### The order of the candidates -/

namespace Candidate

/-- The larger island is before, of two of one size the one whose root has the lower rank, and else
the one that was found earlier. -/
def Before (r : Ranking) (x y : Candidate) : Prop :=
  y.size < x.size ∨ x.size = y.size ∧
    (x.rootRank r < y.rootRank r ∨ x.rootRank r = y.rootRank r ∧ x.position < y.position)

theorem Before.trans (h : x.Before r y) (h' : y.Before r z) : x.Before r z := by
  unfold Before at *
  omega

theorem not_before_self : ¬ x.Before r x := by
  unfold Before
  omega

theorem goesFirst_iff : goesFirst r x y = true ↔ y.size < x.size ∨ x.size = y.size ∧
    (x.rootRank r < y.rootRank r ∨ x.rootRank r = y.rootRank r ∧ x.position ≤ y.position) := by
  simp [goesFirst]

theorem goesFirst_trans (x y z : Candidate) (h : goesFirst r x y = true)
    (h' : goesFirst r y z = true) : goesFirst r x z = true := by
  rw [goesFirst_iff] at *
  omega

theorem goesFirst_total (x y : Candidate) : (goesFirst r x y || goesFirst r y x) = true := by
  rw [Bool.or_eq_true, goesFirst_iff, goesFirst_iff]
  omega

theorem before_of_goesFirst (h : goesFirst r x y = true) (hne : x.position ≠ y.position) :
    x.Before r y := by
  rw [goesFirst_iff] at h
  unfold Before
  omega

theorem meets_iff : x.meets y = true ↔ ∃ n ∈ x.island.nodes, n ∈ y.island.nodes := by
  simp [meets]

end Candidate

open Candidate

theorem mem_candidates_iff : x ∈ candidates islands r ↔ islands[x.position]? = some x.island := by
  rw [candidates, List.mem_mergeSort, List.mem_map]
  constructor
  · rintro ⟨⟨i, position⟩, hi, rfl⟩
    exact List.mem_zipIdx_iff_getElem?.mp hi
  · intro hx
    exact ⟨(x.island, x.position), List.mem_zipIdx_iff_getElem?.mpr hx, rfl⟩

theorem length_candidates : (candidates islands r).length = islands.length := by
  simp [candidates]

theorem pairwise_candidates : (candidates islands r).Pairwise (Before r) := by
  have hsorted : (candidates islands r).Pairwise fun x y => goesFirst r x y = true :=
    List.pairwise_mergeSort goesFirst_trans goesFirst_total _
  have hpositions : (candidates islands r).Pairwise fun x y => x.position ≠ y.position := by
    refine ((List.mergeSort_perm _ _).pairwise_iff fun hne => hne.symm).mpr ?_
    apply List.pairwise_map.mpr
    apply List.pairwise_map.mp (?_ : (islands.zipIdx.map Prod.snd).Nodup)
    rw [List.zipIdx_map_snd]
    exact List.nodup_range'
  exact hsorted.imp₂ (fun _ _ => before_of_goesFirst) hpositions

/-! ### The choice -/

theorem not_mem_choose_iff (hrest : rest.Pairwise (Before r)) (hx : x ∈ rest) :
    x ∉ (choose earlier rest).chosen ↔
      ∃ y, (y ∈ earlier ∨ y ∈ (choose earlier rest).chosen ∧ y.Before r x) ∧
        x.meets y = true := by
  induction rest generalizing earlier with
  | nil => cases hx
  | cons z rest ih =>
    obtain ⟨hz, hrest⟩ := List.pairwise_cons.mp hrest
    have hlater (y) (hy : y ∈ rest) : ¬ y.Before r z := fun h =>
      not_before_self (h.trans (hz y hy))
    have hself : z ∉ rest := fun h => not_before_self (hz z h)
    unfold choose
    split
    · rename_i hmeets
      rcases List.mem_cons.mp hx with rfl | hx
      · obtain ⟨y, hy, hmeets⟩ := List.any_eq_true.mp hmeets
        exact ⟨fun _ => ⟨y, .inl hy, hmeets⟩, fun _ h => hself (mem_of_mem_choose h)⟩
      · exact ih hrest hx
    · rename_i hfree
      rcases List.mem_cons.mp hx with rfl | hx
      · refine iff_of_false (fun h => h List.mem_cons_self) ?_
        rintro ⟨y, hy | ⟨hy, hbefore⟩, hmeets⟩
        · exact hfree (List.any_eq_true.mpr ⟨y, hy, hmeets⟩)
        · rcases List.mem_cons.mp hy with rfl | hy
          · exact not_before_self hbefore
          · exact hlater y (mem_of_mem_choose hy) hbefore
      · have hne : x ≠ z := fun h => hself (h ▸ hx)
        rw [List.mem_cons, not_or, and_iff_right hne, ih hrest hx]
        refine exists_congr fun y => and_congr_left fun _ => ?_
        by_cases hy : y = z
        · simp [hy, hz x hx]
        · simp [hy]

theorem length_choose (earlier rest : List Candidate) :
    (choose earlier rest).chosen.length + (choose earlier rest).rejected = rest.length := by
  induction rest generalizing earlier with
  | nil => rfl
  | cons x rest ih =>
    unfold choose
    split
    · simp only [List.length_cons, ← ih earlier]
      omega
    · simp only [List.length_cons, ← ih (x :: earlier)]
      omega

/-- The chosen islands in their order share no node, and an island is left out only if it shares
one with an island before it that is chosen. -/
structure Selection.Exclusive (s : Selection) (islands : List Island) (r : Ranking) : Prop where
  found : ∀ x ∈ s.chosen, islands[x.position]? = some x.island
  sorted : s.chosen.Pairwise (Before r)
  apart : s.chosen.Pairwise fun x y => ∀ n ∈ x.island.nodes, n ∉ y.island.nodes
  leftOut : ∀ x, islands[x.position]? = some x.island → (x ∉ s.chosen ↔
    ∃ y ∈ s.chosen, y.Before r x ∧ ∃ n ∈ x.island.nodes, n ∈ y.island.nodes)
  counted : s.chosen.length + s.rejected = islands.length

theorem exclusive_select (islands : List Island) (r : Ranking) :
    (select islands r).Exclusive islands r where
  found x hx := mem_candidates_iff.mp (mem_of_mem_choose hx)
  sorted := pairwise_candidates.sublist sublist_choose
  apart := (pairwise_choose _ []).1.imp fun hmeets n hx hy =>
    meets_eq_false_iff.mp hmeets n hy hx
  leftOut x hx := by
    rw [select, not_mem_choose_iff pairwise_candidates (mem_candidates_iff.mpr hx)]
    simp [meets_iff, and_assoc]
  counted := (length_choose _ _).trans length_candidates

-- The second island meets the first, and the third only the second, which is in nobody's way.
example :
    let island (nodes : List Nat) : Island := ⟨.plain, ⟨0, 0⟩, nodes.map fun i => ⟨i, 0⟩, []⟩
    let s := select [island [1, 2, 3], island [3, 4], island [4]] ⟨[], 0⟩
    s.chosen.map Candidate.position = [0, 2] ∧ s.rejected = 1 := by
  cbv

/-! ### The fusions of a run -/

/-- An island that is fused, and the body that it is moved to. -/
structure Fusing where
  island : Island
  boundary : Boundary
  body : Graph

/-- Islands fused one after the other, each by a commit to the graph that the ones before it have
left. All that the commit puts in is a subgraph with the body of the island. -/
inductive FusedInTurn : Graph → List Fusing → Graph → Prop
  | done (g : Graph) : FusedInTurn g [] g
  | fuse {g h k : Graph} {s : Fusing} {p : Plan Body} {done : Commit} {later : List Fusing}
      (boundary : s.island.boundary g = .ok s.boundary)
      (body : s.island.body g s.boundary = .ok s.body)
      (staged : p.staged.map StagedNode.op = [.subgraph (.mk s.body)])
      (commit : g.commit p = .ok (h, done))
      (rest : FusedInTurn h later k) : FusedInTurn g (s :: later) k

theorem FusedInTurn.cons_of_fusePermitted {i : Island} {done : Commit} {k : Graph}
    {later : List Fusing} (hrest : FusedInTurn h later k)
    (e : fusePermitted c g i = .ok (some (h, done))) :
    ∃ s : Fusing, s.island = i ∧ FusedInTurn g (s :: later) k := by
  obtain hnone | ⟨b, p, hb, hp, hacc, hdone⟩ := fusePermitted_eq_ok e
  · cases hnone
  · obtain ⟨body, n, hbody, hstaged, hop, -⟩ := Island.replacement_eq_ok hp
    have hop : p.staged.map StagedNode.op = [.subgraph (.mk body)] := by
      rw [hstaged, List.map_singleton, hop]
    have hcommit : g.commit p = .ok (h, done) :=
      Arena.commit_eq_ok_iff.mpr ⟨hacc, Option.some.inj hdone⟩
    exact ⟨⟨i, b, body⟩, rfl, .fuse hb hbody hop hcommit hrest⟩

theorem exists_fusedInTurn (is : List Island) (r : Ranking) (g : Graph) (o : Outcome) :
    ∃ fs : List Fusing, FusedInTurn g fs (fuseAll c is r g o).1 ∧
      fs.map Fusing.island = fusedAmong c is r g ∧
      ∀ o', (fuseAll c is r g o).2 = .ok o' → o'.rewritten = o.rewritten + fs.length := by
  induction is generalizing r g o with
  | nil => exact ⟨[], .done g, rfl, fun o' ho' => congrArg _ (Except.ok.inj ho').symm⟩
  | cons i is ih =>
    have hfailed (e : TransformError) : ∃ fs : List Fusing, FusedInTurn g fs g ∧
        fs.map Fusing.island = [] ∧ ∀ o' : Outcome, Except.error e = .ok o' →
          o'.rewritten = o.rewritten + fs.length := ⟨[], .done g, rfl, nofun⟩
    unfold fuseAll fusedAmong
    cases r.refresh g with
    | error e => exact hfailed _
    | ok r =>
      dsimp only
      split
      · rcases hf : fusePermitted c g i with e | _ | ⟨h, done⟩
        · exact hfailed _
        · exact ih r g o
        · obtain ⟨fs, hturn, hislands, hrewritten⟩ := ih r h (fused o done)
          obtain ⟨s, rfl, hturn⟩ := hturn.cons_of_fusePermitted hf
          refine ⟨s :: fs, hturn, congrArg _ hislands, fun o' ho' => ?_⟩
          rw [hrewritten o' ho', List.length_cons, ← Nat.add_assoc, Nat.add_right_comm]
          rfl
      · exact ih r g o

theorem apart_fusedBy (c : Config) (g : Graph) : Apart (fusedBy c g) := by
  unfold fusedBy
  split
  · exact .nil
  · exact (apart_select _ _).sublist fusedAmong_sublist

/-- An island is chosen unless it shares a node with one that is chosen and before it, which makes
the chosen ones exclusive. A run therefore moves no node into two bodies. The islands are told
apart by the handles of their nodes, and a node has the same handle as long as it is there. -/
theorem islands_exclusive :
    (∀ islands r, (select islands r).Exclusive islands r) ∧
    ∀ c g, ∃ fs : List Fusing, FusedInTurn g fs (run c g).1 ∧
      fs.map Fusing.island = fusedBy c g ∧
      (∀ o, (run c g).2 = .ok o → o.rewritten = fs.length) ∧
      fs.Pairwise fun s t => ∀ n ∈ s.island.nodes, n ∉ t.island.nodes := by
  refine ⟨exclusive_select, fun c g => ?_⟩
  obtain ⟨fs, hturn, hislands, hrewritten⟩ : ∃ fs : List Fusing, FusedInTurn g fs (run c g).1 ∧
      fs.map Fusing.island = fusedBy c g ∧
        ∀ o, (run c g).2 = .ok o → o.rewritten = fs.length := by
    unfold run fusedBy
    cases Ranking.compute g with
    | error e => exact ⟨[], .done g, rfl, nofun⟩
    | ok r =>
      obtain ⟨fs, hturn, hislands, hrewritten⟩ := exists_fusedInTurn (c := c)
        ((select (discover c r g).1 r).chosen.map Candidate.island) r g
        { Outcome.none with matched := (discover c r g).2 }
      exact ⟨fs, hturn, hislands, fun o ho => (hrewritten o ho).trans (Nat.zero_add _)⟩
  have hapart : Apart (fs.map Fusing.island) := hislands ▸ apart_fusedBy c g
  exact ⟨fs, hturn, hislands, hrewritten, (List.pairwise_map.mp hapart).imp
    fun hdisjoint n hs ht => hdisjoint n ht hs⟩

end TensorGraph.Attention
