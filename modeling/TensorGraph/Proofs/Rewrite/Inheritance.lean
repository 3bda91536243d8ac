import Mathlib
import TensorGraph.Graph.Body
import TensorGraph.Proofs.Arena.Precedence
import TensorGraph.Proofs.Rewrite.History

/-! # Inherited annotations

Annotations that nodes take over from others, by a copy or because a commit puts the nodes in. The
copy is followed through all graphs that it passes, so that a node that is gone is seen to be
found before the first change.
-/

namespace TensorGraph.Arena

variable {β : Type} {a b : Arena β} {x id : NodeId} {n m : Node β} {key : String}
variable {sources destinations ids : List NodeId} {merged : Annotations}

/-! ### The copy step by step -/

/-- The annotations of nodes gathered one after the other, up to a node that is gone. -/
def gather (a : Arena β) (merged : Annotations) : List NodeId → Except GraphError Annotations
  | [] => .ok merged
  | id :: rest => do
    let n ← a.node id
    a.gather (merged.merge n.annotations) rest

/-- Nodes completed one after the other, up to one that is gone. Those before it stay completed. -/
def completeInTurn (merged : Annotations) (a : Arena β) :
    List NodeId → Arena β × Except GraphError Unit
  | [] => (a, .ok ())
  | id :: rest =>
    match a.node id with
    | .ok _ => completeInTurn merged (a.complete merged id) rest
    | .error e => (a, .error e)

/-- The sources gathered, the destinations looked up, and only then the destinations completed. -/
def copyInTurn (a : Arena β) (sources destinations : List NodeId) :
    Arena β × Except GraphError Unit :=
  let gathered := do
    let merged ← a.gather .empty sources
    destinations.forM fun id => discard (a.node id)
    return merged
  match gathered with
  | .ok merged => completeInTurn merged a destinations
  | .error e => (a, .error e)

theorem firstGone?_cons : a.firstGone? (id :: ids) =
    if a.contains id then a.firstGone? ids else some id := by
  rw [firstGone?, List.find?_cons]
  by_cases h : a.contains id = true <;> simp [h, firstGone?]

theorem firstGone?_append (ids others : List NodeId) :
    a.firstGone? (ids ++ others) = (a.firstGone? ids).or (a.firstGone? others) :=
  List.find?_append

theorem forM_node_eq : ids.forM (fun id => discard (a.node id)) =
    match a.firstGone? ids with
    | none => .ok ()
    | some id => .error (.unknownNode id) := by
  induction ids with
  | nil => rfl
  | cons id ids ih =>
    change (discard (a.node id) >>= fun _ => ids.forM fun id => discard (a.node id)) = _
    rw [ih, firstGone?_cons, node, contains]
    cases a.node? id <;> rfl

theorem gather_eq : a.gather merged sources = do
    sources.forM fun id => discard (a.node id)
    return sources.foldl (fun merged id =>
      ((a.node? id).map fun n => merged.merge n.annotations).getD merged) merged := by
  induction sources generalizing merged with
  | nil => rfl
  | cons id sources ih =>
    change _ = (discard (a.node id) >>= fun _ => sources.forM fun id => discard (a.node id)) >>= _
    rw [gather, List.foldl_cons, node]
    cases a.node? id with
    | none => rfl
    | some n => exact ih

theorem completeInTurn_eq (h : ∀ id ∈ ids, a.contains id = true) :
    completeInTurn merged a ids = (a.completeAll merged ids, .ok ()) := by
  induction ids generalizing a with
  | nil => rfl
  | cons id ids ih =>
    obtain ⟨n, hn⟩ := contains_iff.mp (h id List.mem_cons_self)
    rw [completeInTurn, node_eq_ok_iff.mpr hn]
    exact ih fun y hy => contains_complete.trans (h y (List.mem_cons_of_mem _ hy))

/-! ### What is inherited -/

/-- The destinations are annotated as before, and beyond that as the first source that has the
key. Nothing else differs. -/
structure Completed (a b : Arena β) (sources destinations : List NodeId) : Prop where
  listed : ∀ id ∈ destinations, ∀ n, a.node? id = some n → ∃ m, b.node? id = some m ∧
    ∀ key, m.annotations.get? key = (n.annotations.get? key).or (a.firstAnnotation? sources key)
  unlisted : ∀ id, id ∉ destinations → b.node? id = a.node? id
  rest : b.unannotated = a.unannotated

theorem completed_completeAll (h : ∀ id ∈ destinations, a.contains id = true) :
    a.Completed (a.completeAll (a.mergedAnnotations sources) destinations) sources
      destinations where
  listed id hid n hn := by
    refine ⟨{ n with annotations := n.annotations.merge (a.mergedAnnotations sources) }, ?_, ?_⟩
    · rw [node?_completeAll h, hn, Option.map_some, if_pos hid]
    · simp
  unlisted id hid := by
    rw [node?_completeAll h]
    simp [hid]
  rest := unannotated_completeAll destinations

theorem firstAnnotation?_completeAll (h : ∀ id ∈ destinations, a.contains id = true)
    (hnone : a.firstAnnotation? sources key = none) :
    (a.completeAll (a.mergedAnnotations sources) destinations).firstAnnotation? sources key =
      none := by
  refine List.findSome?_eq_none_iff.mpr fun id hid => ?_
  have hbefore := List.findSome?_eq_none_iff.mp hnone id hid
  rw [node?_completeAll h]
  cases hn : a.node? id with
  | none => rfl
  | some n =>
    rw [hn, Option.bind_some] at hbefore
    by_cases hlisted : id ∈ destinations <;> simp [hlisted, hbefore, hnone]

theorem completeAll_completeAll (h : ∀ id ∈ destinations, a.contains id = true) :
    let b := a.completeAll (a.mergedAnnotations sources) destinations
    b.completeAll (b.mergedAnnotations sources) destinations = b := by
  intro b
  have hb (id : NodeId) (hid : id ∈ destinations) : b.contains id = true :=
    contains_completeAll.trans (h id hid)
  refine ext_unannotated (unannotated_completeAll destinations) fun x => ?_
  rw [node?_completeAll hb, node?_completeAll h, Option.map_map]
  congr 1
  funext n
  by_cases hx : x ∈ destinations
  · have hkeys := Annotations.merge_merge_of_keys (a := n.annotations)
      (b := a.mergedAnnotations sources) (c := b.mergedAnnotations sources) fun key hnone => by
        rw [get?_mergedAnnotations] at hnone ⊢
        exact firstAnnotation?_completeAll h hnone
    simp [hx, hkeys]
  · simp [hx]

theorem WellFormed.get?_of_commit (ha : a.WellFormed) {p : Plan β} {done : Commit}
    {staged : StagedNode β} {i : Nat} (e : a.commit p = .ok (b, done))
    (hstaged : p.staged[i]? = some staged) (hid : done.inserted[i]? = some id)
    (hm : b.node? id = some m) :
    m.annotations.get? key = (staged.annotations.get? key).or (a.firstAnnotation? p.sources key) := by
  obtain ⟨hp, he⟩ := commit_eq_ok_iff.mp e
  obtain rfl : b = (a.apply p).1 := congrArg Prod.fst he
  have hinserted : done.inserted = (a.rewire p).2 := by
    rw [apply_eq] at he
    exact congrArg (fun r => r.2.inserted) he
  rw [hinserted] at hid
  obtain ⟨name, hnew⟩ := (rewired_rewire ha hp).new i staged id hstaged hid
  have hbare := (remains_apply ha hp).bare id (contains_of_node? hm)
  rw [hnew, bare?, hm, Option.map_some, Option.some.injEq] at hbare
  have hannotations : m.annotations =
      staged.annotations.merge (a.mergedAnnotations p.sources) := congrArg Node.annotations hbare
  simp [hannotations]

theorem firstAnnotation?_inherit (p : Plan β) (sources : List NodeId) :
    a.firstAnnotation? (p.inherit sources).sources key =
      a.firstAnnotation? (p.sources ++ sources) key := by
  unfold Plan.inherit
  dsimp only
  generalize p.sources = known
  induction sources generalizing known with
  | nil => simp
  | cons id sources ih =>
    rw [List.foldl_cons, ih]
    split
    · rename_i hknown
      unfold firstAnnotation?
      rw [List.findSome?_append, List.findSome?_append, List.findSome?_cons]
      cases hfirst : known.findSome? fun id => (a.node? id).bind fun n => n.annotations.get? key with
      | some value => rfl
      | none => rw [List.findSome?_eq_none_iff.mp hfirst id (List.contains_iff_mem.mp hknown)]
    · rw [List.append_assoc]
      rfl

/-! ### Operations of a client -/

variable [Described β]

theorem perform_copyAnnotations (h : ∀ id ∈ sources ++ destinations, a.contains id = true) :
    (Command.copyAnnotations sources destinations).perform a =
      (a.completeAll (a.mergedAnnotations sources) destinations, .ok ()) := by
  rw [Command.perform, copyAnnotations_eq, firstGone?_eq_none_iff.mpr h]
  rfl

theorem perform_copyAnnotations_gone (h : a.firstGone? (sources ++ destinations) = some id) :
    (Command.copyAnnotations sources destinations).perform a = (a, .error (.unknownNode id)) := by
  rw [Command.perform, copyAnnotations_eq, h]
  rfl

theorem copyInTurn_eq :
    a.copyInTurn sources destinations =
      (Command.copyAnnotations sources destinations).perform a := by
  have hsplit := firstGone?_append (a := a) sources destinations
  rw [copyInTurn, gather_eq, forM_node_eq, forM_node_eq]
  cases hs : a.firstGone? sources with
  | some id => exact (perform_copyAnnotations_gone (by rw [hsplit, hs]; rfl)).symm
  | none =>
    cases hd : a.firstGone? destinations with
    | some id => exact (perform_copyAnnotations_gone (by rw [hsplit, hs, hd]; rfl)).symm
    | none =>
      have hall : a.firstGone? (sources ++ destinations) = none := by rw [hsplit, hs, hd]; rfl
      rw [perform_copyAnnotations (firstGone?_eq_none_iff.mp hall)]
      exact completeInTurn_eq (firstGone?_eq_none_iff.mp hd)

/-- Own annotations come first, then those of the sources in their order. A copy gives every
destination just these and changes nothing else, also when it is made again, and it changes nothing
at all when a node is gone. A commit gives them to the nodes that it puts in and that stay, from
the sources as they were before it. -/
theorem annotations_inherited (a : Arena β) :
    (∀ sources destinations,
      let r := (Command.copyAnnotations sources destinations).perform a
      a.copyInTurn sources destinations = r ∧
      ((∀ id ∈ sources ++ destinations, a.contains id = true) →
        r.2 = .ok () ∧ a.Completed r.1 sources destinations ∧
          (Command.copyAnnotations sources destinations).perform r.1 = r) ∧
      (∀ id ∈ sources ++ destinations, ¬ a.contains id = true →
        ∃ gone, a.firstGone? (sources ++ destinations) = some gone ∧
          r = (a, .error (.unknownNode gone)))) ∧
    (∀ (p : Plan β) sources key, a.firstAnnotation? (p.inherit sources).sources key =
      a.firstAnnotation? (p.sources ++ sources) key) ∧
    (a.WellFormed → ∀ (p : Plan β) b done, a.commit p = .ok (b, done) →
      ∀ (i : Nat) staged id m, p.staged[i]? = some staged → done.inserted[i]? = some id →
        b.node? id = some m → ∀ key, m.annotations.get? key =
          (staged.annotations.get? key).or (a.firstAnnotation? p.sources key)) := by
  refine ⟨fun sources destinations => ?_, fun p sources key => firstAnnotation?_inherit p sources,
    fun ha p b done e i staged id m hstaged hid hm key => ha.get?_of_commit e hstaged hid hm⟩
  intro r
  refine ⟨copyInTurn_eq, fun h => ?_, fun id hid hgone => ?_⟩
  · have hdestinations := (List.forall_mem_append.mp h).2
    have hr : r = (a.completeAll (a.mergedAnnotations sources) destinations, .ok ()) :=
      perform_copyAnnotations h
    have hagain : ∀ id ∈ sources ++ destinations,
        (a.completeAll (a.mergedAnnotations sources) destinations).contains id = true :=
      fun id hid => contains_completeAll.trans (h id hid)
    rw [hr]
    refine ⟨rfl, completed_completeAll hdestinations, ?_⟩
    rw [perform_copyAnnotations hagain, completeAll_completeAll hdestinations]
  · cases hfirst : a.firstGone? (sources ++ destinations) with
    | none => exact absurd (firstGone?_eq_none_iff.mp hfirst id hid) hgone
    | some gone => exact ⟨gone, rfl, perform_copyAnnotations_gone hfirst⟩

/-- Two functions applied one after the other, both annotated, and the input as well. -/
def remarked : Graph := reached .standard [
  .addParameter "x" ⟨.f32, .ofSizes [2]⟩,
  .addNode (Primitive.softmax (-1)) [⟨⟨0, 0⟩, 0⟩],
  .addNode (Primitive.softmax (-1)) [⟨⟨1, 0⟩, 0⟩],
  .addResult ⟨⟨2, 0⟩, 0⟩,
  .annotate ⟨0, 0⟩ "origin" "input",
  .annotate ⟨1, 0⟩ "origin" "import",
  .annotate ⟨1, 0⟩ "level" "1"]

/-- A single function in the place of the two, with an annotation of its own. -/
def joining : Plan Body where
  staged := [⟨Primitive.softmax (-1), [.graph ⟨⟨0, 0⟩, 0⟩], [⟨.f32, .ofSizes [2]⟩], "",
    Annotations.empty.insert "level" "2"⟩]
  replacements := [(⟨⟨2, 0⟩, 0⟩, .staged 0 0)]
  sources := [⟨1, 0⟩, ⟨0, 0⟩]

/-- The input keeps its origin in a copy that it is a source of as well. The commit releases the
first source, whose origin the staged node has. -/
theorem annotations_inherited_remarked :
    (∃ b n, (Command.copyAnnotations [⟨1, 0⟩, ⟨0, 0⟩] [⟨0, 0⟩, ⟨1, 0⟩, ⟨0, 0⟩]).perform remarked =
        (b, .ok ()) ∧
      b.node? ⟨0, 0⟩ = some n ∧ n.annotations.get? "origin" = some "input" ∧
        n.annotations.get? "level" = some "1") ∧
    ∃ b done m, remarked.commit joining = .ok (b, done) ∧ b.contains ⟨1, 0⟩ = false ∧
      b.node? ⟨4, 0⟩ = some m ∧ m.annotations.get? "origin" = some "import" ∧
        m.annotations.get? "level" = some "2" := by
  obtain ⟨hcopy, -, hcommit⟩ := annotations_inherited remarked
  constructor
  · obtain ⟨-, hlive, -⟩ := hcopy [⟨1, 0⟩, ⟨0, 0⟩] [⟨0, 0⟩, ⟨1, 0⟩, ⟨0, 0⟩]
    obtain ⟨hok, hcompleted, -⟩ := hlive (by decide +kernel)
    obtain ⟨n, hn, hkeys⟩ := hcompleted.listed ⟨0, 0⟩ (by decide) _ rfl
    exact ⟨_, n, Prod.ext rfl hok, hn, (hkeys "origin").trans rfl, (hkeys "level").trans rfl⟩
  · have hdone : (remarked.commit joining).toOption.map (fun r => (r.1.contains ⟨1, 0⟩,
        r.1.contains ⟨4, 0⟩, r.2.inserted)) = some (false, true, [⟨4, 0⟩]) := by cbv
    obtain ⟨⟨b, done⟩, e, he⟩ := map_toOption_eq_some_iff.mp hdone
    simp only [Prod.mk.injEq] at he
    obtain ⟨hgone, hstays, hinserted⟩ := he
    obtain ⟨m, hm⟩ := contains_iff.mp hstays
    have hkeys := hcommit (wellFormed_reached _ _) joining b done e 0 _ ⟨4, 0⟩ m rfl
      (by rw [hinserted]; rfl) hm
    exact ⟨b, done, m, e, hgone, hm, (hkeys "origin").trans rfl, (hkeys "level").trans rfl⟩

end TensorGraph.Arena
