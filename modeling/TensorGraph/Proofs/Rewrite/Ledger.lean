import TensorGraph.Proofs.Rewrite.Content
import TensorGraph.Proofs.Rewrite.Generations

/-! # Ledgers

Every node that an operation puts in gets the handle of its slot at the generation of the slot,
and that counts the releases of the slot up to then. A ledger records along a history which handles
were given out and which nodes were released.
-/

namespace TensorGraph

variable {β : Type}

namespace Arena

variable {a b c m : Arena β} {x y id : NodeId} {n : Node β} {p : Plan β} {ids : List NodeId}
variable {i k : Nat}

/-- The generation that the next node in a slot gets; a slot that does not exist has none yet. -/
def generationAt (a : Arena β) (index : Nat) : UInt32 := (a.generation? index).getD 0

theorem generationAt_of_contains (hx : a.contains x = true) :
    a.generationAt x.index = x.generation := by
  rw [generationAt, generation?_of_contains hx, Option.getD_some]

theorem generationAt_congr (h : b.generation? i = a.generation? i) :
    b.generationAt i = a.generationAt i := by
  rw [generationAt, h, generationAt]

/-! ### Edits -/

theorem generationAt_modifyNode (a : Arena β) (j : Nat) (f : Node β → Node β) :
    (a.modifyNode j f).generationAt = a.generationAt :=
  funext fun _ => generationAt_congr (KeepsGenerations.generation?_modifyNode a j f)

theorem generationAt_modifyPins (a : Arena β) (j : Nat) (f : UInt32 → UInt32) :
    (a.modifyPins j f).generationAt = a.generationAt := by
  funext i
  apply generationAt_congr
  simp only [generation?, modifyPins, Array.getElem?_modify]
  split
  · rw [Option.map_map]
    rfl
  · rfl

theorem generation_allocate (a : Arena β) (n : Node β) :
    (a.allocate n).2.generation = a.generationAt (a.allocate n).2.index := by
  unfold allocate
  split
  · rfl
  · simp [generationAt, generation?]

theorem generationAt_allocate (a : Arena β) (n : Node β) :
    (a.allocate n).1.generationAt = a.generationAt := by
  funext i
  cases h : a.generation? i with
  | some gen =>
    apply generationAt_congr
    rw [h]
    exact KeepsGenerations.allocate a n i gen h
  | none =>
    have hnone : a.slots[i]? = none := by simpa [generation?] using h
    unfold allocate
    split
    · simp [generationAt, generation?, Array.getElem?_modify, hnone]
    · simp only [generationAt, generation?, Array.getElem?_push, hnone]
      split <;> rfl

theorem keptByEdits_generationAt (f : Nat → UInt32) :
    KeptByEdits fun a : Arena β => a.generationAt = f where
  allocate a n h := (generationAt_allocate a n).trans h
  modifyNode a j g h := (generationAt_modifyNode a j g).trans h
  bump _ h := h
  enlist a kind id h := by
    unfold enlist
    split <;> exact h

/-- The same handles name nodes, and the slots have the same generations. -/
structure SameHandles (a b : Arena β) : Prop where
  contains : b.contains = a.contains
  generationAt : b.generationAt = a.generationAt

namespace SameHandles

theorem refl (a : Arena β) : a.SameHandles a := ⟨rfl, rfl⟩

theorem trans (h : a.SameHandles b) (h' : b.SameHandles c) : a.SameHandles c :=
  ⟨h'.contains.trans h.contains, h'.generationAt.trans h.generationAt⟩

theorem modifyNode (a : Arena β) (j : Nat) (f : Node β → Node β) :
    a.SameHandles (a.modifyNode j f) :=
  ⟨funext fun _ => contains_modifyNode j f, generationAt_modifyNode a j f⟩

theorem modifyPins (a : Arena β) (j : Nat) (f : UInt32 → UInt32) : a.SameHandles (a.modifyPins j f) := by
  refine ⟨?_, generationAt_modifyPins a j f⟩
  funext x
  rw [Arena.contains, node?_modifyPins, Arena.contains]

theorem updateNode {f : Node β → Node β} (e : a.updateNode id f = .ok b) : a.SameHandles b := by
  obtain ⟨-, rfl⟩ := updateNode_eq_ok_iff.mp e
  exact modifyNode a _ _

theorem copyAnnotations {sources destinations : List NodeId}
    (e : a.copyAnnotations sources destinations = .ok b) : a.SameHandles b := by
  refine copyAnnotations_induction (refl a) (fun c merged id hc => hc.trans ?_) e
  exact modifyNode c id.index _

theorem revalidate [Described β] (a : Arena β) : a.SameHandles a.revalidate.1 := by
  have hinfer (order : List NodeId) : a.SameHandles (a.inferAll order).1 :=
    inferAll_induction (fun b i f h => h.trans (modifyNode b i f)) (refl a) order
  unfold Arena.revalidate
  split
  · exact refl a
  · rename_i order _
    have h := hinfer order
    split <;> rename_i e <;> rw [e] at h
    · exact ⟨h.contains, h.generationAt⟩
    · exact h

end SameHandles

/-! ### New handles -/

/-- The nodes of an arena and those with new handles, which have the generations of their slots. -/
structure Issued (a m : Arena β) (ids : List NodeId) : Prop where
  wellFormed : m.WellFormed
  nodup : ids.Nodup
  fresh : ∀ x ∈ ids, ¬ a.contains x = true
  generation : ∀ x ∈ ids, x.generation = a.generationAt x.index
  contains_iff : ∀ x, m.contains x = true ↔ x ∈ ids ∨ a.contains x = true
  generationAt : m.generationAt = a.generationAt

namespace Issued

theorem none (hm : m.WellFormed) (h : a.SameHandles m) : a.Issued m [] where
  wellFormed := hm
  nodup := .nil
  fresh _ hx := absurd hx List.not_mem_nil
  generation _ hx := absurd hx List.not_mem_nil
  contains_iff x := by simp [h.contains]
  generationAt := h.generationAt

theorem single (hm : m.WellFormed) (hfresh : ¬ a.contains id = true)
    (hgen : id.generation = a.generationAt id.index)
    (hc : ∀ x, m.contains x = true ↔ x = id ∨ a.contains x = true)
    (hg : m.generationAt = a.generationAt) : a.Issued m [id] where
  wellFormed := hm
  nodup := List.nodup_singleton id
  fresh := List.forall_mem_singleton.mpr hfresh
  generation := List.forall_mem_singleton.mpr hgen
  contains_iff x := by rw [hc, List.mem_singleton]
  generationAt := hg

end Issued

theorem Grown.contains_iff {op : Operation β} {inputs : List Value}
    (h : a.Grown b id op inputs) : b.contains x = true ↔ x = id ∨ a.contains x = true := by
  by_cases hx : x = id
  · simp [hx, h.contains]
  · simp [hx, contains_eq_bare, h.old x hx]

theorem WellFormed.issued_addParameter (ha : a.WellFormed) (name : String) (spec : Spec) :
    a.Issued (a.addParameter name spec).1 [(a.addParameter name spec).2] := by
  have hgrown := ha.grown_addParameter name spec
  refine .single hgrown.wellFormed hgrown.fresh (generation_allocate a _)
    (fun x => hgrown.contains_iff) ?_
  exact (keptByEdits_generationAt a.generationAt).addParameter rfl name spec

theorem WellFormed.issued_addVerbatim (ha : a.WellFormed) {op : Operation β}
    {inputs : List Value} {outputs : List Spec}
    (e : a.addVerbatim op inputs outputs = .ok (b, id)) : a.Issued b [id] := by
  have hgrown := ha.grown_addVerbatim e
  have hgen : id.generation = a.generationAt id.index := by
    obtain ⟨-, c, hc, -⟩ := addVerbatim_eq_ok_iff.mp e
    have hallocate := generation_allocate a (.fresh op outputs "" .empty)
    rwa [hc] at hallocate
  exact .single hgrown.wellFormed hgrown.fresh hgen (fun x => hgrown.contains_iff)
    ((keptByEdits_generationAt a.generationAt).addVerbatim rfl e)

theorem generation_insertStaged (inherited : Annotations) (staged : List (StagedNode β))
    (a : Arena β) (hx : x ∈ (a.insertStaged inherited staged).2) :
    x.generation = a.generationAt x.index := by
  induction staged generalizing a with
  | nil => exact absurd hx List.not_mem_nil
  | cons n staged ih =>
    rw [insertStaged_cons] at hx
    rcases List.mem_cons.mp hx with rfl | hx
    · exact generation_allocate a _
    · rw [ih _ hx, generationAt_allocate]

theorem WellFormed.issued_rewire (ha : a.WellFormed) (hp : p.Accepted a) :
    a.Issued (a.rewire p).1 (a.rewire p).2 where
  wellFormed := (rewired_rewire ha hp).wellFormed
  nodup := (rewired_rewire ha hp).nodup
  fresh := (rewired_rewire ha hp).fresh
  generation _ hx := generation_insertStaged _ p.staged a hx
  contains_iff _ := (rewired_rewire ha hp).contains_iff
  generationAt := (keptByEdits_generationAt a.generationAt).rewire rfl p

end Arena

open Arena

variable [Described β] {a b : Arena β} {x id : NodeId} {history : List (Command β)}

/-! ### Operations -/

namespace Command

def issued (a : Arena β) : Command β → List NodeId
  | addParameter name spec => [(a.addParameter name spec).2]
  | addNode op inputs => ((a.addNode op inputs).toOption.map Prod.snd).toList
  | addResult v => ((a.addResult v).toOption.map Prod.snd).toList
  | commit p => ((a.commit p).toOption.map fun done => done.2.inserted).getD []
  | _ => []

/-- The nodes that an operation releases, those included that it puts in itself. -/
def dropped (a : Arena β) (c : Command β) : List NodeId :=
  (a.nodeIds ++ c.issued a).filter fun x => !(c.perform a).1.contains x

/-- What an operation does to handles: some are given out, and then some nodes are released. -/
theorem exists_issued (ha : a.WellFormed) (c : Command β) :
    ∃ m k, a.Issued m (c.issued a) ∧ m.Releases k (c.perform a).1 := by
  have hsame : a.Issued a [] := .none ha (.refl a)
  have hadd (op : Operation β) (inputs : List Value) : ∃ m k,
      a.Issued m ((a.addNode op inputs).toOption.map Prod.snd).toList ∧
        m.Releases k (settle a Prod.fst (a.addNode op inputs)).1 := by
    cases e : a.addNode op inputs with
    | error f => exact ⟨a, 0, hsame, .refl⟩
    | ok y =>
      obtain ⟨specs, outputs, -, -, e⟩ := addNode_eq_ok_iff.mp e
      exact ⟨y.1, 0, ha.issued_addVerbatim e, .refl⟩
  have hcommit (p : Plan β) (hp : p.Accepted a) :
      ∃ m k, a.Issued m (a.apply p).2.inserted ∧ m.Releases k (a.apply p).1 := by
    refine ⟨_, _, ?_, releases_apply a p⟩
    rw [apply_eq]
    exact ha.issued_rewire hp
  cases c with
  | addParameter name spec => exact ⟨_, 0, ha.issued_addParameter name spec, .refl⟩
  | addNode op inputs => exact hadd op inputs
  | addResult v => exact hadd _ _
  | rename id name =>
    exact ⟨_, 0, .none (ha.perform (.rename id name))
      (settle_induction (.refl a) fun b e => .updateNode e), .refl⟩
  | annotate id key value =>
    exact ⟨_, 0, .none (ha.perform (.annotate id key value))
      (settle_induction (.refl a) fun b e => .updateNode e), .refl⟩
  | copyAnnotations sources destinations =>
    exact ⟨_, 0, .none (ha.perform (.copyAnnotations sources destinations))
      (settle_induction (.refl a) fun b e => .copyAnnotations e), .refl⟩
  | pin id =>
    refine ⟨_, 0, .none (ha.perform (.pin id)) (settle_induction (.refl a) fun b e => ?_), .refl⟩
    obtain ⟨-, rfl⟩ := pin_eq_ok_iff.mp e
    exact .modifyPins a _ _
  | unpin id =>
    cases e : a.unpin id with
    | error f =>
      rw [perform, e]
      exact ⟨a, 0, hsame, .refl⟩
    | ok done =>
      obtain ⟨hid, rfl⟩ := unpin_eq_ok_iff.mp e
      rw [perform, e]
      exact ⟨_, _, .none (ha.modifyPins _ hid) (.modifyPins a _ _), releases_release _ id⟩
  | collectGarbage => exact ⟨a, _, hsame, releases_collectGarbage a⟩
  | replace v w =>
    cases e : a.replace v w with
    | error f =>
      rw [perform, e]
      exact ⟨a, 0, hsame, .refl⟩
    | ok done =>
      obtain ⟨hp, rfl⟩ := replace_eq_ok_iff.mp e
      rw [perform, e]
      exact hcommit (Plan.empty.replace v w) hp
  | revalidate => exact ⟨_, 0, .none ha.revalidate (.revalidate a), .refl⟩
  | commit p =>
    cases e : a.commit p with
    | error f =>
      rw [issued, perform, e]
      exact ⟨a, 0, hsame, .refl⟩
    | ok done =>
      obtain ⟨hp, rfl⟩ := commit_eq_ok_iff.mp e
      rw [issued, perform, e]
      exact hcommit p hp

theorem mem_dropped_iff {m : Arena β} {c : Command β} (hi : a.Issued m (c.issued a)) :
    x ∈ c.dropped a ↔ m.contains x = true ∧ ¬ (c.perform a).1.contains x = true := by
  simp only [dropped, List.mem_filter, List.mem_append, mem_nodeIds_iff_contains, hi.contains_iff,
    Bool.not_eq_eq_eq_not, Bool.not_true, Bool.not_eq_true, or_comm]

theorem nodup_dropped {m : Arena β} {c : Command β} (hi : a.Issued m (c.issued a)) :
    (c.dropped a).Nodup := by
  refine List.Nodup.filter _ (List.Nodup.append nodup_nodeIds hi.nodup ?_)
  intro x hx hx'
  exact hi.fresh x hx' (mem_nodeIds_iff_contains.mp hx)

end Command

/-! ### Histories -/

namespace Arena

def issued (a : Arena β) : List (Command β) → List NodeId
  | [] => []
  | c :: history => c.issued a ++ issued (c.perform a).1 history

def dropped (a : Arena β) : List (Command β) → List NodeId
  | [] => []
  | c :: history => c.dropped a ++ dropped (c.perform a).1 history

end Arena

/-- How often a slot was released, if these nodes were. -/
def releases (gone : List NodeId) (index : Nat) : Nat := gone.countP fun x => x.index == index

@[simp] theorem releases_append (gone gone' : List NodeId) (i : Nat) :
    releases (gone ++ gone') i = releases gone i + releases gone' i := List.countP_append

theorem Command.releases_dropped {m : Arena β} {c : Command β} (hi : a.Issued m (c.issued a))
    (hx : x ∈ c.dropped a) : releases (c.dropped a) x.index = 1 := by
  have hcount : releases (c.dropped a) x.index = (c.dropped a).count x := by
    refine List.countP_congr fun y hy => ?_
    rw [beq_iff_eq, beq_iff_eq]
    exact ⟨fun he => eq_of_contains_index ((mem_dropped_iff hi).mp hy).1
      ((mem_dropped_iff hi).mp hx).1 he, fun he => congrArg _ he⟩
  rw [hcount]
  exact List.count_eq_one_of_mem (nodup_dropped hi) hx

/-- The slot was released more often than when the handle was given out. -/
def Expired (gone : List NodeId) (x : NodeId) : Prop :=
  ∃ k < releases gone x.index, x.generation = UInt32.ofNat k

theorem Expired.append {gone : List NodeId} (h : Expired gone x) (gone' : List NodeId) :
    Expired (gone ++ gone') x := by
  obtain ⟨k, hk, hgen⟩ := h
  exact ⟨k, by rw [releases_append]; omega, hgen⟩

namespace Arena

/-- What is known of handles when some have been given out and some nodes have been released. -/
structure Ledger (a : Arena β) (given gone : List NodeId) : Prop where
  wellFormed : a.WellFormed
  nodup : given.Nodup
  live : ∀ x, a.contains x = true → x ∈ given
  generationAt : ∀ i, a.generationAt i = UInt32.ofNat (releases gone i)
  expired : ∀ x ∈ given, ¬ a.contains x = true → Expired gone x

namespace Ledger

variable {given gone : List NodeId}

omit [Described β] in
theorem start (table : CapabilityTable) : (empty table : Arena β).Ledger [] [] where
  wellFormed := wellFormed_empty table
  nodup := .nil
  live x hx := by
    rw [contains, node?_empty] at hx
    cases hx
  generationAt _ := rfl
  expired _ hx := absurd hx List.not_mem_nil

omit [Described β] in
/-- An expired handle is not that of the next node in its slot. -/
theorem generation_ne (h : a.Ledger given gone) (hx : Expired gone x)
    (hbound : releases gone x.index < UInt32.size) : x.generation ≠ a.generationAt x.index := by
  obtain ⟨k, hk, hgen⟩ := hx
  intro he
  rw [hgen, h.generationAt] at he
  have hnat := congrArg UInt32.toNat he
  rw [UInt32.toNat_ofNat_of_lt' (hk.trans hbound), UInt32.toNat_ofNat_of_lt' hbound] at hnat
  exact hk.ne hnat

theorem perform (h : a.Ledger given gone) (c : Command β)
    (hbound : ∀ i, releases gone i < UInt32.size) :
    (c.perform a).1.Ledger (given ++ c.issued a) (gone ++ c.dropped a) := by
  obtain ⟨m, k, hi, hr⟩ := Command.exists_issued h.wellFormed c
  have hdropped {x : NodeId} := Command.mem_dropped_iff (x := x) hi
  have hgeneration {x : NodeId} (hx : m.contains x = true) :
      x.generation = UInt32.ofNat (releases gone x.index) := by
    rw [← generationAt_of_contains hx, hi.generationAt, h.generationAt]
  refine ⟨h.wellFormed.perform c, List.Nodup.append h.nodup hi.nodup fun x hx hx' => ?_,
    fun x hx => ?_, fun i => ?_, fun x hx hgone => ?_⟩
  · -- a new handle is none of those that were given out
    have hexpired := h.expired x hx (hi.fresh x hx')
    exact h.generation_ne hexpired (hbound _) (hi.generation x hx')
  · have hm : m.contains x = true := by
      rw [contains_eq_bare, ← (hr.remains hi.wellFormed).bare x hx, ← contains_eq_bare, hx]
    rcases (hi.contains_iff x).mp hm with hx | hx
    · exact List.mem_append_right _ hx
    · exact List.mem_append_left _ (h.live x hx)
  · by_cases hsome : ∃ x ∈ c.dropped a, x.index = i
    · obtain ⟨x, hx, rfl⟩ := hsome
      obtain ⟨hm, hgone⟩ := hdropped.mp hx
      have hpast : (c.perform a).1.generation? x.index = some (x.generation + 1) :=
        (hr.past hm hgone).1
      rw [Arena.generationAt, hpast, Option.getD_some, releases_append,
        Command.releases_dropped hi hx, hgeneration hm, UInt32.ofNat_add]
      rfl
    · have hkeep : ∀ y, y.index = i → m.contains y = true →
          (c.perform a).1.contains y = true := by
        intro y hy hm
        by_contra hgone
        exact hsome ⟨y, hdropped.mpr ⟨hm, hgone⟩, hy⟩
      have hzero : releases (c.dropped a) i = 0 := by
        refine List.countP_eq_zero.mpr fun y hy => ?_
        rw [beq_iff_eq]
        exact fun he => hsome ⟨y, hy, he⟩
      rw [generationAt_congr (hr.generation?_eq hi.wellFormed hkeep), hi.generationAt,
        h.generationAt, releases_append, hzero, Nat.add_zero]
  · by_cases hm : m.contains x = true
    · refine ⟨releases gone x.index, ?_, hgeneration hm⟩
      rw [releases_append, Command.releases_dropped hi (hdropped.mpr ⟨hm, hgone⟩)]
      exact Nat.lt_succ_self _
    · obtain ⟨hnew, hold⟩ := not_or.mp (mt (hi.contains_iff x).mpr hm)
      have hgiven : x ∈ given := (List.mem_append.mp hx).resolve_right hnew
      exact (h.expired x hgiven hold).append _

theorem after (h : a.Ledger given gone) (history : List (Command β))
    (hbound : ∀ i, releases (gone ++ a.dropped history) i < UInt32.size) :
    (a.after history).Ledger (given ++ a.issued history) (gone ++ a.dropped history) := by
  induction history generalizing a given gone with
  | nil => simpa [Arena.issued, Arena.dropped] using h
  | cons c history ih =>
    have hfirst : ∀ i, releases gone i < UInt32.size := fun i => by
      have := hbound i
      rw [releases_append] at this
      omega
    rw [Arena.dropped, ← List.append_assoc] at hbound
    rw [Arena.issued, Arena.dropped, ← List.append_assoc, ← List.append_assoc, after_cons]
    exact ih (h.perform c hfirst) hbound

end Ledger

end Arena

end TensorGraph
