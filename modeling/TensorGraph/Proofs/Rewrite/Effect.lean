import TensorGraph.Proofs.Arena.Release
import TensorGraph.Proofs.Rewrite.Acceptance

/-! # Effect of a commit

A commit puts the staged nodes into slots that no live handle names, redirects the inputs of the
nodes that were there, and wires the staged nodes to what their operands stand for. If the plan
was accepted, the arena stays well formed.
-/

namespace TensorGraph

variable {β : Type}

def StagedNode.fresh (n : StagedNode β) (inherited : Annotations) : Node β :=
  .fresh n.op n.outputs n.name (n.annotations.merge inherited)

def Node.unnamed (n : Node β) : Node β := { n with name := "" }

namespace Arena

variable {a b c : Arena β} {x y id : NodeId} {n : Node β} {v w : Value} {u : Use}
variable {p : Plan β} {ids inserted : List NodeId}

/-! ### Insertion -/

/-- One arena is the other with isolated nodes in slots that were vacant or did not exist. -/
structure Inserted (a b : Arena β) (inherited : Annotations) (staged : List (StagedNode β))
    (ids : List NodeId) : Prop where
  wellFormed : b.WellFormed
  length : ids.length = staged.length
  nodup : ids.Nodup
  fresh : ∀ id ∈ ids, ¬ a.contains id = true
  unpinned : ∀ id ∈ ids, a.pins id = 0
  old : ∀ x, x ∉ ids → b.node? x = a.node? x
  new : ∀ (i : Nat) (n : StagedNode β) (id : NodeId), staged[i]? = some n → ids[i]? = some id →
    b.node? id = some (n.fresh inherited)
  uses : b.uses = a.uses
  producer : b.producer? = a.producer?
  pins : b.pins = a.pins
  parameters : b.parameters = a.parameters
  results : b.results = a.results
  table : b.table = a.table

theorem insertStaged_cons (inherited : Annotations) (n : StagedNode β)
    (staged : List (StagedNode β)) : a.insertStaged inherited (n :: staged) =
      (((a.allocate (n.fresh inherited)).1.insertStaged inherited staged).1,
        (a.allocate (n.fresh inherited)).2 ::
          ((a.allocate (n.fresh inherited)).1.insertStaged inherited staged).2) := rfl

theorem Inserted.cons {inherited : Annotations} {n : StagedNode β}
    {staged : List (StagedNode β)} (hal : a.Allocated b (n.fresh inherited) id)
    (h : b.Inserted c inherited staged ids) :
    a.Inserted c inherited (n :: staged) (id :: ids) := by
  have hn : (n.fresh inherited).Isolated := Node.isolated_fresh _ _ _ _
  have hnew : ∀ x ∈ ids, x ≠ id ∧ ¬ a.contains x = true := by
    intro x hx
    have hfresh := h.fresh x hx
    rwa [hal.contains_eq, not_or] at hfresh
  have hid : id ∉ ids := fun hm => (hnew id hm).1 rfl
  refine ⟨h.wellFormed, congrArg (· + 1) h.length, List.nodup_cons.mpr ⟨hid, h.nodup⟩, ?_,
    List.forall_mem_cons.mpr ⟨hal.pins_before, hal.pins_eq ▸ h.unpinned⟩, ?_, ?_,
    h.uses.trans (hal.uses_eq hn), h.producer.trans (hal.producer?_eq hn),
    h.pins.trans hal.pins_eq, h.parameters.trans hal.parameters,
    h.results.trans hal.results, h.table.trans hal.table⟩
  · intro x hx
    rcases List.mem_cons.mp hx with rfl | hx
    · exact hal.not_contains
    · exact (hnew x hx).2
  · intro x hx
    obtain ⟨hne, hx⟩ := not_or.mp (mt List.mem_cons.mpr hx)
    rw [h.old x hx, hal.node?_eq, if_neg hne]
  · intro i m x hm hx
    cases i with
    | zero =>
      obtain rfl : n = m := Option.some.inj hm
      obtain rfl : id = x := Option.some.inj hx
      rw [h.old id hid, hal.node?_eq, if_pos rfl]
    | succ i => exact h.new i m x hm hx

theorem inserted_insertStaged (h : a.WellFormed) (inherited : Annotations)
    (staged : List (StagedNode β)) :
    a.Inserted (a.insertStaged inherited staged).1 inherited staged
      (a.insertStaged inherited staged).2 := by
  induction staged generalizing a with
  | nil =>
    exact ⟨h, rfl, .nil, fun _ hid => absurd hid List.not_mem_nil,
      fun _ hid => absurd hid List.not_mem_nil, fun _ _ => rfl,
      fun _ _ _ hn => absurd hn (by simp), rfl, rfl, rfl, rfl, rfl, rfl⟩
  | cons n staged ih =>
    rw [insertStaged_cons]
    exact .cons (allocated_allocate h.free_vacant _) (ih (h.allocate (Node.isolated_fresh _ _ _ _)))

/-! ### Replacements -/

theorem hasOutput_repoint (hl : a.Linked) (old new : Value) :
    (a.repoint old new).hasOutput = a.hasOutput := by
  funext v
  rw [hasOutput_eq_spec?, hasOutput_eq_spec?, spec?_eq_bare, spec?_eq_bare, bare?_repoint hl]
  cases a.bare? v.node <;> rfl

def repointAll (a : Arena β) (rs : List (Value × Value)) : Arena β :=
  rs.foldl (fun a r => a.repoint r.1 r.2) a

def redirectAll (rs : List (Value × Value)) (v : Value) : Value :=
  rs.foldl (fun v r => instead r.1 r.2 v) v

/-- Both ends of every replacement are present and differ. -/
def Repointable (a : Arena β) (rs : List (Value × Value)) : Prop :=
  ∀ r ∈ rs, a.hasOutput r.1 = true ∧ a.hasOutput r.2 = true ∧ r.2 ≠ r.1

section RepointAll

variable {rs : List (Value × Value)}

theorem sameSlots_repointAll (a : Arena β) (rs : List (Value × Value)) :
    a.SameSlots (a.repointAll rs) :=
  .foldl _ (fun _ _ => sameSlots_repoint _ _) _ a

theorem Linked.repointAll (hl : a.Linked) (h : a.Repointable rs) :
    (a.repointAll rs).Linked := by
  unfold Arena.repointAll
  induction rs generalizing a with
  | nil => exact hl
  | cons r rs ih =>
    obtain ⟨ho, hn, hne⟩ := h r List.mem_cons_self
    refine ih (hl.repoint ho hn hne) fun s hs => ?_
    rw [hasOutput_repoint hl]
    exact h s (List.mem_cons_of_mem _ hs)

theorem bare?_repointAll (hl : a.Linked) (h : a.Repointable rs) :
    (a.repointAll rs).bare? x =
      (a.bare? x).map fun n => { n with inputs := n.inputs.map (redirectAll rs) } := by
  unfold Arena.repointAll
  induction rs generalizing a with
  | nil =>
    have hid : redirectAll [] = id := rfl
    cases hx : a.bare? x <;> simp [hx, hid]
  | cons r rs ih =>
    obtain ⟨ho, hn, hne⟩ := h r List.mem_cons_self
    rw [List.foldl_cons, ih (hl.repoint ho hn hne) fun s hs => ?_, bare?_repoint hl,
      Option.map_map]
    · cases a.bare? x with
      | none => rfl
      | some n => simp [redirectAll, Function.comp_def]
    · rw [hasOutput_repoint hl]
      exact h s (List.mem_cons_of_mem _ hs)

/-- A value stays, or it was replaced and something took its place. -/
theorem redirectAll_cases (rs : List (Value × Value)) (v : Value) :
    (redirectAll rs v = v ∧ ∀ r ∈ rs, r.1 ≠ v) ∨
    (∃ r ∈ rs, r.1 = v) ∧ ∃ r ∈ rs, redirectAll rs v = r.2 := by
  unfold redirectAll
  induction rs generalizing v with
  | nil => exact .inl ⟨rfl, fun _ hr => absurd hr List.not_mem_nil⟩
  | cons r rs ih =>
    rw [List.foldl_cons]
    by_cases hv : v = r.1
    · have hi : instead r.1 r.2 v = r.2 := if_pos hv
      refine .inr ⟨⟨r, List.mem_cons_self, hv.symm⟩, ?_⟩
      rw [hi]
      rcases ih r.2 with ⟨h, -⟩ | ⟨-, s, hs, h⟩
      · exact ⟨r, List.mem_cons_self, h⟩
      · exact ⟨s, List.mem_cons_of_mem _ hs, h⟩
    · have hi : instead r.1 r.2 v = v := if_neg hv
      rw [hi]
      rcases ih v with ⟨h, hne⟩ | ⟨⟨s, hs, hsv⟩, t, ht, h⟩
      · exact .inl ⟨h, List.forall_mem_cons.mpr ⟨fun he => hv he.symm, hne⟩⟩
      · exact .inr ⟨⟨s, List.mem_cons_of_mem _ hs, hsv⟩, t, List.mem_cons_of_mem _ ht, h⟩

theorem redirectAll_eq_self (h : ∀ s ∈ rs, s.1 ≠ v) : redirectAll rs v = v := by
  rcases redirectAll_cases rs v with ⟨he, -⟩ | ⟨⟨s, hs, he⟩, -⟩
  · exact he
  · exact absurd he (h s hs)

theorem exists_redirectAll (h : ∀ r ∈ rs, ∀ t ∈ rs, r.2 ≠ t.1) (hv : ∃ r ∈ rs, r.1 = v) :
    ∃ r ∈ rs, r.1 = v ∧ redirectAll rs v = r.2 := by
  induction rs with
  | nil => simp at hv
  | cons r rs ih =>
    by_cases he : r.1 = v
    · refine ⟨r, List.mem_cons_self, he, ?_⟩
      have hi : redirectAll (r :: rs) v = redirectAll rs r.2 := by
        simp [redirectAll, instead, he]
      rw [hi]
      exact redirectAll_eq_self fun t ht =>
        (h r List.mem_cons_self t (List.mem_cons_of_mem _ ht)).symm
    · have hi : redirectAll (r :: rs) v = redirectAll rs v := by
        simp [redirectAll, instead, Ne.symm he]
      obtain ⟨t, ht, htv⟩ := hv
      have hrest : ∃ r ∈ rs, r.1 = v :=
        ⟨t, (List.mem_cons.mp ht).resolve_left fun e => he (e ▸ htv), htv⟩
      obtain ⟨s, hs, hsv, e⟩ := ih (fun r hr t ht =>
        h r (List.mem_cons_of_mem _ hr) t (List.mem_cons_of_mem _ ht)) hrest
      exact ⟨s, List.mem_cons_of_mem _ hs, hsv, hi.trans e⟩

/-- What no replacement breaks still holds where a value is redirected to. -/
theorem redirectAll_induction {P : Value → Prop} (h : ∀ r ∈ rs, P r.1 → P r.2) (hv : P v) :
    P (redirectAll rs v) := by
  induction rs generalizing v with
  | nil => exact hv
  | cons r rs ih =>
    obtain ⟨hr, hrs⟩ := List.forall_mem_cons.mp h
    have hinstead : P (instead r.1 r.2 v) := by
      unfold instead
      split
      · rename_i he
        exact hr (he ▸ hv)
      · exact hv
    exact ih hrs hinstead

/-- What is the same at both ends of every replacement is the same after all of them. -/
theorem apply_redirectAll {V : Type} {τ : Value → V} (h : ∀ r ∈ rs, τ r.2 = τ r.1)
    (v : Value) : τ (redirectAll rs v) = τ v :=
  redirectAll_induction (P := fun w => τ w = τ v) (fun r hr hv => (h r hr).trans hv) rfl

end RepointAll

/-! ### Wiring -/

def wireAll (a : Arena β) (ws : List (NodeId × List Value)) : Arena β :=
  ws.foldl (fun a w => a.wire w.1 w.2) a

/-- The nodes are different ones without inputs, and what they are to read is present. -/
structure Wirable (a : Arena β) (ws : List (NodeId × List Value)) : Prop where
  nodup : (ws.map Prod.fst).Nodup
  isolated : ∀ w ∈ ws, ∃ n, a.bare? w.1 = some n ∧ n.inputs = []
  present : ∀ w ∈ ws, ∀ v ∈ w.2, a.hasOutput v = true

theorem hasOutput_wire (h : a.contains id = true) (inputs : List Value) :
    (a.wire id inputs).hasOutput = a.hasOutput := by
  funext v
  rw [hasOutput_eq_spec?, hasOutput_eq_spec?, spec?_eq_bare, spec?_eq_bare, bare?_wire h]
  split
  · rename_i hv
    rw [hv]
    cases a.bare? id <;> rfl
  · rfl

section WireAll

variable {ws : List (NodeId × List Value)}

theorem sameSlots_wireAll (a : Arena β) (ws : List (NodeId × List Value)) :
    a.SameSlots (a.wireAll ws) :=
  .foldl _ (fun _ _ => sameSlots_wire _ _) _ a

theorem Wirable.wire {w : NodeId × List Value} (h : a.Wirable (w :: ws)) :
    a.contains w.1 = true ∧ (a.wire w.1 w.2).Wirable ws := by
  obtain ⟨n, hn, -⟩ := h.isolated w List.mem_cons_self
  have hc : a.contains w.1 = true := contains_of_bare? hn
  obtain ⟨hnot, hnodup⟩ := List.nodup_cons.mp h.nodup
  refine ⟨hc, hnodup, fun s hs => ?_, fun s hs => ?_⟩
  · have hne : s.1 ≠ w.1 := fun he => hnot (he ▸ List.mem_map_of_mem hs)
    rw [bare?_wire hc, if_neg hne]
    exact h.isolated s (List.mem_cons_of_mem _ hs)
  · rw [hasOutput_wire hc]
    exact h.present s (List.mem_cons_of_mem _ hs)

theorem Linked.wireAll (hl : a.Linked) (h : a.Wirable ws) : (a.wireAll ws).Linked := by
  unfold Arena.wireAll
  induction ws generalizing a with
  | nil => exact hl
  | cons w ws ih =>
    obtain ⟨hc, hrest⟩ := h.wire
    obtain ⟨n, hn, hempty⟩ := h.isolated w List.mem_cons_self
    refine ih (hl.wire hc (fun u hu => ?_) (h.present w List.mem_cons_self)) hrest
    rw [producer?_eq_bare, hu, hn, Option.bind_some, hempty]
    rfl

theorem bare?_wireAll_of_not_mem (h : a.Wirable ws) (hx : x ∉ ws.map Prod.fst) :
    (a.wireAll ws).bare? x = a.bare? x := by
  unfold Arena.wireAll
  induction ws generalizing a with
  | nil => rfl
  | cons w ws ih =>
    obtain ⟨hc, hrest⟩ := h.wire
    obtain ⟨hne, hx⟩ := not_or.mp (mt List.mem_cons.mpr hx)
    rw [List.foldl_cons, ih hrest hx, bare?_wire hc, if_neg hne]

theorem bare?_wireAll_of_mem (h : a.Wirable ws) {inputs : List Value} (hx : (x, inputs) ∈ ws) :
    (a.wireAll ws).bare? x = (a.bare? x).map fun n => { n with inputs } := by
  unfold Arena.wireAll
  induction ws generalizing a with
  | nil => exact absurd hx List.not_mem_nil
  | cons w ws ih =>
    obtain ⟨hc, hrest⟩ := h.wire
    obtain ⟨hnot, -⟩ := List.nodup_cons.mp h.nodup
    rw [List.foldl_cons]
    rcases List.mem_cons.mp hx with rfl | hx
    · refine (bare?_wireAll_of_not_mem hrest hnot).trans ?_
      rw [bare?_wire hc, if_pos rfl]
    · have hne : x ≠ w.1 := fun he => hnot (he ▸ List.mem_map_of_mem hx)
      rw [ih hrest hx, bare?_wire hc, if_neg hne]

end WireAll

/-! ### Staged nodes in place -/

section Resolve

variable {inherited : Annotations} {x : Operand}

theorem Inserted.contains_of_old (h : a.Inserted b inherited p.staged ids)
    (hid : a.contains id = true) : id ∉ ids := fun hm => h.fresh id hm hid

theorem Inserted.spec?_old (h : a.Inserted b inherited p.staged ids)
    (hv : a.contains v.node = true) : b.spec? v = a.spec? v := by
  rw [spec?, spec?, output?, output?, h.old _ (h.contains_of_old hv)]

/-- The handle of a staged node. -/
theorem Inserted.exists_id (h : a.Inserted b inherited p.staged ids) {index : Nat}
    {n : StagedNode β} (hn : p.staged[index]? = some n) : ∃ id, ids[index]? = some id := by
  have hlt : index < ids.length := h.length ▸ (List.getElem?_eq_some_iff.mp hn).1
  exact ⟨_, List.getElem?_eq_getElem hlt⟩

theorem resolve_staged {index port : Nat} (hid : ids[index]? = some id) :
    (Operand.staged index port).resolve ids = id.output port := by
  simp [Operand.resolve, hid]

/-- An operand has the spec of the value that it stands for. -/
theorem Inserted.spec?_resolve (h : a.Inserted b inherited p.staged ids) {s : Spec}
    (hs : p.spec? a x = some s) : b.spec? (x.resolve ids) = some s := by
  cases x with
  | graph v =>
    exact (h.spec?_old (contains_of_spec? hs)).trans hs
  | staged index port =>
    obtain ⟨n, hn, hport⟩ := Option.bind_eq_some_iff.mp hs
    obtain ⟨id, hid⟩ := h.exists_id hn
    rw [resolve_staged hid, spec?, output?, NodeId.output, h.new index n id hn hid]
    simp [StagedNode.fresh, Node.fresh, hport]

theorem Inserted.resolve_ne (h : a.Inserted b inherited p.staged ids) {s : Spec}
    (hs : p.spec? a x = some s) (hx : x ≠ .graph v) (hv : a.contains v.node = true) :
    x.resolve ids ≠ v := by
  cases x with
  | graph w => exact fun he => hx (congrArg _ he)
  | staged index port =>
    obtain ⟨n, hn, -⟩ := Option.bind_eq_some_iff.mp hs
    obtain ⟨id, hid⟩ := h.exists_id hn
    rw [resolve_staged hid]
    rintro rfl
    exact h.fresh id (List.mem_of_getElem? hid) hv

end Resolve

/-! ### Names -/

/-- One arena is the other with other names of some nodes. -/
structure Renamed (a b : Arena β) (ids : List NodeId) : Prop where
  slots : a.SameSlots b
  uses : b.uses = a.uses
  wellFormed : a.WellFormed → b.WellFormed
  unnamed : ∀ x, (b.bare? x).map Node.unnamed = (a.bare? x).map Node.unnamed
  bare : ∀ x, x ∉ ids → b.bare? x = a.bare? x

namespace Renamed

theorem refl (a : Arena β) (ids : List NodeId) : a.Renamed a ids :=
  ⟨.refl a, rfl, fun h => h, fun _ => rfl, fun _ _ => rfl⟩

theorem trans (h : a.Renamed b ids) (h' : b.Renamed c ids) : a.Renamed c ids :=
  ⟨h.slots.trans h'.slots, h'.uses.trans h.uses, fun ha => h'.wellFormed (h.wellFormed ha),
    fun x => (h'.unnamed x).trans (h.unnamed x), fun x hx => (h'.bare x hx).trans (h.bare x hx)⟩

theorem contains (h : a.Renamed b ids) : b.contains = a.contains := by
  funext x
  have hx := congrArg Option.isSome (h.unnamed x)
  rwa [Option.isSome_map, Option.isSome_map, ← contains_eq_bare, ← contains_eq_bare] at hx

end Renamed

theorem renamed_nameIfEmpty (hid : a.contains id = true) (hmem : id ∈ ids) (name : String) :
    a.Renamed (a.nameIfEmpty id name) ids := by
  obtain ⟨n, hn⟩ := contains_iff.mp hid
  let f (n : Node β) : Node β := if n.name.isEmpty then { n with name } else n
  have huses (n : Node β) : (f n).outputs.map Output.uses = n.outputs.map Output.uses := by
    simp only [f]
    split <;> rfl
  have hinputs (n : Node β) : (f n).inputs = n.inputs := by
    simp only [f]
    split <;> rfl
  have hkind (n : Node β) : (f n).kind = n.kind := by
    simp only [f]
    split <;> rfl
  have hunnamed (n : Node β) : (f n).bare.unnamed = n.bare.unnamed := by
    simp only [f]
    split <;> rfl
  refine ⟨.modifyNode a _ _, uses_modifyNode huses _,
    fun h => h.modifyNode fun _ n _ _ => ⟨huses n, hinputs n, hkind n⟩, fun x => ?_, fun x hx => ?_⟩
  · change ((a.modifyNode id.index f).bare? x).map _ = _
    rw [bare?, node?_modifyNode_of_live hn, bare?]
    split
    · rename_i hx
      rw [hx, hn]
      exact congrArg some (hunnamed n)
    · rfl
  · have hne : x ≠ id := fun he => hx (he ▸ hmem)
    change (a.modifyNode id.index f).bare? x = _
    rw [bare?, node?_modifyNode_of_live hn, if_neg hne, bare?]

theorem contains_nameIfEmpty (id : NodeId) (name : String) :
    (a.nameIfEmpty id name).contains = a.contains := by
  funext x
  rw [nameIfEmpty, contains_modifyNode]

def nameAll (before a : Arena β) (inserted : List NodeId) (rs : List (Value × Operand)) :
    Arena β :=
  rs.foldl (fun a (v, x) => inheritName before a inserted v x) a

theorem renamed_nameAll (before : Arena β) {rs : List (Value × Operand)}
    (h : ∀ r ∈ rs, ∀ index port, r.2 = .staged index port →
      (r.2.resolve ids).node ∈ ids ∧ a.contains (r.2.resolve ids).node = true) :
    a.Renamed (nameAll before a ids rs) ids := by
  unfold nameAll
  induction rs generalizing a with
  | nil => exact .refl a ids
  | cons r rs ih =>
    have hr : a.Renamed (inheritName before a ids r.1 r.2) ids := by
      unfold inheritName
      split
      · rename_i index port n hop _
        obtain ⟨hmem, hc⟩ := h r List.mem_cons_self index port hop
        rw [hop] at hmem hc
        rw [hop]
        exact renamed_nameIfEmpty hc hmem _
      · exact .refl a ids
    refine hr.trans (ih fun s hs index port he => ?_)
    rw [hr.contains]
    exact h s (List.mem_cons_of_mem _ hs) index port he

end Arena

end TensorGraph
