import TensorGraph.Attention.Pass
import TensorGraph.Proofs.Attention.Motif
import TensorGraph.Proofs.Rewrite.Staging

/-! # Nodes of islands

The nodes that a motif or a step after one takes along are of few kinds. Neither anchors nor
constants are among them, so parameters and results of a graph never move into a body.
-/

namespace TensorGraph.Attention

variable {g : Graph} {id : NodeId} {c : Config} {r : Ranking}

def Island.Moves (i : Island) (g : Graph) : Prop :=
  ∀ id ∈ i.constants ++ i.nodes, ∀ n, g.node? id = some n → n.isAnchor = false

namespace Island

variable {variant : Variant} {m : Match} {i : Island} {x : NodeId}
variable {nodes members : List NodeId} {last : NodeId} {count : Nat}

theorem addEpilogue_induction {Q : List NodeId → Prop}
    (hstep : ∀ nodes x k, Q nodes → g.kind? x = some k → k ∈ epilogueKinds → Q (nodes ++ [x]))
    (h : Q nodes) (e : addEpilogue g count nodes last = some members) : Q members := by
  induction count generalizing nodes last with
  | zero =>
    obtain rfl := Option.some.inj e
    exact h
  | succ count ih =>
    unfold addEpilogue at e
    split at e
    · rename_i u hu
      split at e
      · cases e
      · rename_i kind hkind
        split at e
        · rename_i hc
          have hmem := List.contains_iff_mem.mp (Bool.and_eq_true_iff.mp hc).1
          exact ih (hstep nodes u.node kind h hkind hmem) e
        · obtain rfl := Option.some.inj e
          exact h
    · obtain rfl := Option.some.inj e
      exact h

theorem collect_eq_some (e : collect c r g variant m = some i) : ∃ members,
    addEpilogue g c.maxEpilogue m.nodes m.root.node = some members ∧ (∀ x ∈ members, x ∈ r.order) ∧
      i.nodes = r.order.filter members.contains ∧ i.constants ⊆ constantsOf g i.nodes := by
  unfold collect at e
  dsimp only at e
  split at e
  · cases e
  rename_i members hmembers
  split at e
  · rename_i hall
    obtain rfl := Option.some.inj e
    refine ⟨members, hmembers, ?_, rfl, ?_⟩
    · intro x hx
      exact List.contains_iff_mem.mp (List.all_eq_true.mp hall x hx)
    · dsimp only
      split
      · exact List.Subset.refl _
      · exact List.nil_subset _
  · cases e

theorem mem_nodes_of_collect (e : collect c r g variant m = some i) (hx : x ∈ m.nodes) :
    x ∈ i.nodes := by
  obtain ⟨members, hmembers, horder, hnodes, -⟩ := collect_eq_some e
  have hmem : x ∈ members := addEpilogue_induction (Q := (x ∈ ·))
    (fun _ _ _ h _ _ => List.mem_append_left _ h) hx hmembers
  rw [hnodes]
  exact List.mem_filter.mpr ⟨horder x hmem, List.contains_iff_mem.mpr hmem⟩

theorem member_of_collect (hm : ∀ x ∈ m.nodes, ∃ k, g.kind? x = some k ∧ Member k)
    (e : collect c r g variant m = some i) (hx : x ∈ i.nodes) :
    ∃ k, g.kind? x = some k ∧ Member k := by
  obtain ⟨members, hmembers, -, hnodes, -⟩ := collect_eq_some e
  have hall : ∀ x ∈ members, ∃ k, g.kind? x = some k ∧ Member k := by
    apply addEpilogue_induction ?_ hm hmembers
    intro nodes x k h hkind hmem
    have hepilogue : ∀ k ∈ epilogueKinds, Member k := by decide
    exact List.forall_mem_append.mpr
      ⟨h, List.forall_mem_singleton.mpr ⟨k, hkind, hepilogue k hmem⟩⟩
  rw [hnodes] at hx
  exact hall x (List.contains_iff_mem.mp (List.mem_filter.mp hx).2)

theorem constant_of_collect (e : collect c r g variant m = some i) (hx : x ∈ i.constants) :
    g.kind? x = some .constant ∧ ∃ y ∈ i.nodes, g.Reads y x := by
  obtain ⟨-, -, -, -, hconstants⟩ := collect_eq_some e
  obtain ⟨hx, hkind⟩ := List.mem_filter.mp (List.mem_eraseDups.mp (hconstants hx))
  obtain ⟨y, hy, hread⟩ := List.mem_flatMap.mp hx
  exact ⟨by simpa using hkind, y, hy, hread⟩

theorem moves_collect (hm : ∀ id ∈ m.nodes, ∃ k, g.kind? id = some k ∧ Member k)
    (e : collect c r g variant m = some i) : i.Moves g := by
  intro id hid n hn
  have hkind : ∃ k, g.kind? id = some k ∧ Movable k := by
    rcases List.mem_append.mp hid with hid | hid
    · exact ⟨_, (constant_of_collect e hid).1, rfl⟩
    · obtain ⟨k, hk, hmember⟩ := member_of_collect hm e hid
      exact ⟨k, hk, hmember.movable⟩
  obtain ⟨k, hk, hmovable⟩ := hkind
  obtain rfl : n.kind = k := Option.some.inj ((congrArg (Option.map Node.kind) hn).symm.trans hk)
  exact hmovable

/-! ### The plan for an island -/

/-- The subgraph of a body, as it is staged with outputs of these specs. -/
def stagedSubgraph (i : Island) (b : Boundary) (body : Graph) (specs : List Spec)
    (name : String) : StagedNode Body where
  op := .subgraph (.mk body)
  inputs := b.inputs.map .graph
  outputs := specs
  name := name
  annotations := Annotations.empty.insert variantKey i.variant.name

/-- The plan that stages this subgraph for all that leaves the island. -/
def collapsed (i : Island) (b : Boundary) (body : Graph) (specs : List Spec) (name : String) :
    Plan Body :=
  { (Plan.mk [i.stagedSubgraph b body specs name] [] []).inherit i.nodes with
    replacements := b.outputs.zipIdx.map fun x => (x.1, .staged 0 x.2) }

theorem mem_sources_collapsed {b : Boundary} {body : Graph} {specs : List Spec} {name : String} :
    x ∈ (i.collapsed b body specs name).sources ↔ x ∈ i.nodes :=
  Plan.mem_inherit_iff.trans (or_iff_right List.not_mem_nil)

theorem replacement_eq_ok_iff {b : Boundary} {p : Plan Body} : i.replacement g b = .ok p ↔
    ∃ body sink given specs, i.body g b = .ok body ∧ g.node? i.sink = some sink ∧
      b.inputs.map g.spec? = given.map some ∧ g.infer (.subgraph (.mk body)) given = .ok specs ∧
      p = i.collapsed b body specs sink.name := by
  have hoperands (given : List Spec) :
      (b.inputs.map Operand.graph).mapM ((.empty : Plan Body).operandSpec g) = .ok given ↔
        b.inputs.map g.spec? = given.map some := by
    rw [mapM_eq_ok_iff fun x s => Plan.operandSpec_eq_ok_iff, List.map_map]
    rfl
  simp only [replacement, bind_eq_ok_iff, Prod.exists, Plan.make_eq_ok_iff, Arena.node_eq_ok_iff]
  constructor
  · rintro ⟨body, hbody, sink, hsink, p₁, k, ⟨given, specs, hgiven, hspecs, rfl, rfl⟩,
      p₂, hrename, p₃, hannotate, e⟩
    obtain ⟨-, rfl⟩ := Plan.modifyStaged_eq_ok_iff.mp hrename
    obtain ⟨-, rfl⟩ := Plan.modifyStaged_eq_ok_iff.mp hannotate
    obtain rfl := Except.ok.inj e
    exact ⟨body, sink, given, specs, hbody, hsink, (hoperands given).mp hgiven, hspecs,
      Plan.foldl_replace ..⟩
  · rintro ⟨body, sink, given, specs, hbody, hsink, hgiven, hspecs, rfl⟩
    refine ⟨body, hbody, sink, hsink, _, _,
      ⟨given, specs, (hoperands given).mpr hgiven, hspecs, rfl, rfl⟩, ?_⟩
    refine ⟨_, Plan.modifyStaged_eq_ok_iff.mpr ⟨Nat.one_pos, rfl⟩, ?_⟩
    refine ⟨_, Plan.modifyStaged_eq_ok_iff.mpr ⟨Nat.one_pos, rfl⟩, ?_⟩
    exact congrArg Except.ok (Plan.foldl_replace ..)

end Island

/-- The match behind an island that was found. -/
theorem exists_match_of_mem_discover {i : Island} (hi : i ∈ (discover c r g).1) :
    ∃ (variant : Variant) (root : NodeId) (m : Match),
      g.kind? root = some .matMul ∧ variant.motif.matchNode g root = some m ∧
        Island.collect c r g variant m = some i := by
  obtain ⟨⟨variant, m⟩, hm, hi⟩ := List.mem_filterMap.mp hi
  obtain ⟨root, -, hm⟩ := List.mem_filterMap.mp hm
  unfold motifAt? at hm
  split at hm
  · rename_i hroot
    obtain ⟨variant', -, hv⟩ := List.exists_of_findSome?_eq_some hm
    obtain ⟨m', hmatch, hv⟩ := Option.map_eq_some_iff.mp hv
    obtain ⟨rfl, rfl⟩ := Prod.mk.inj hv
    exact ⟨variant', root, m', hroot, hmatch, (Option.filter_eq_some_iff.mp hi).1⟩
  · cases hm

theorem moves_of_mem_discover {i : Island} (hi : i ∈ (discover c r g).1) : i.Moves g := by
  obtain ⟨variant, root, m, -, hmatch, hcollect⟩ := exists_match_of_mem_discover hi
  apply Island.moves_collect ?_ hcollect
  intro id hid
  exact Pattern.kind?_of_mem_nodes variant.ensures_motif.2.1 hmatch hid

/-! ### Selection -/

theorem sublist_choose {chosen rest : List Candidate} :
    (choose chosen rest).chosen.Sublist rest := by
  induction rest generalizing chosen with
  | nil => exact .slnil
  | cons y rest ih =>
    unfold choose
    split
    · exact ih.cons y
    · exact ih.cons_cons y

theorem mem_of_mem_choose {chosen rest : List Candidate} {x : Candidate}
    (hx : x ∈ (choose chosen rest).chosen) : x ∈ rest := sublist_choose.subset hx

theorem mem_of_mem_select {islands : List Island} {i : Island}
    (hi : i ∈ (select islands r).chosen.map Candidate.island) : i ∈ islands := by
  obtain ⟨x, hx, rfl⟩ := List.mem_map.mp hi
  have hx := List.mem_mergeSort.mp (mem_of_mem_choose hx)
  obtain ⟨⟨i, position⟩, hmem, rfl⟩ := List.mem_map.mp hx
  exact List.mem_of_getElem? (List.mem_zipIdx_iff_getElem?.mp hmem)

end TensorGraph.Attention
