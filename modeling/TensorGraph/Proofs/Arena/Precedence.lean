import Mathlib.Data.List.Perm.Basic
import TensorGraph.Proofs.Arena.Lookup

/-! # Precedence of annotations

What a node is annotated with after its annotations are completed by others. Own values come
first, then those of the sources, in the order in which the sources are listed.
-/

namespace TensorGraph

namespace Annotations

variable {a b c : Annotations} {key key' value : String}

theorem find?_insertEntry {entries : List (String × String)} :
    ((insertEntry key value entries).find? fun e => e.1 == key').map Prod.snd =
      if key = key' then some value else (entries.find? fun e => e.1 == key').map Prod.snd := by
  induction entries with
  | nil => by_cases h : key = key' <;> simp [insertEntry, h]
  | cons e rest ih =>
    rw [insertEntry]
    split
    · by_cases h : key = key' <;> simp [h]
    · split
      · rename_i heq
        by_cases h : key = key' <;> simp [h, ← heq]
      · rename_i hne
        by_cases h : e.1 = key'
        · have hkey : key ≠ key' := fun hk => hne (hk.trans h.symm)
          simp [h, hkey]
        · simpa [h] using ih

theorem get?_insert :
    (a.insert key value).get? key' = if key = key' then some value else a.get? key' :=
  find?_insertEntry

theorem get?_insertNew :
    (a.insertNew key value).get? key' =
      (a.get? key').or (if key = key' then some value else none) := by
  unfold insertNew
  by_cases h : key = key'
  · subst h
    cases hv : a.get? key <;> simp [hv, get?_insert]
  · split <;> simp [get?_insert, h]

@[simp] theorem get?_empty : empty.get? key = none := rfl

/-- Own values come before those of the other annotations. -/
@[simp] theorem get?_merge : (a.merge b).get? key = (a.get? key).or (b.get? key) := by
  unfold merge
  rw [show b.get? key = (b.entries.find? fun e => e.1 == key).map Prod.snd from rfl]
  generalize b.entries = entries
  induction entries generalizing a with
  | nil => simp
  | cons e rest ih =>
    rw [List.foldl_cons, ih, get?_insertNew, Option.or_assoc]
    by_cases h : e.1 = key <;> simp [h]

theorem mem_entries_iff : (key, value) ∈ a.entries ↔ a.get? key = some value := by
  obtain ⟨entries, sorted⟩ := a
  unfold get?
  dsimp only
  induction entries with
  | nil => simp
  | cons e rest ih =>
    obtain ⟨hlt, hrest⟩ := List.pairwise_cons.mp sorted
    obtain ⟨k, v⟩ := e
    rw [List.mem_cons, ih hrest]
    by_cases h : k = key
    · subst h
      have hnone : (rest.find? fun e => e.1 == k) = none :=
        List.find?_eq_none.mpr fun x hx he => String.lt_irrefl k (by
          simpa only [beq_iff_eq.mp he] using hlt x hx)
      simp [hnone, eq_comm]
    · simp [h, Ne.symm h]

theorem ext_get? (h : ∀ key, a.get? key = b.get? key) : a = b := by
  have hnodup (a : Annotations) : a.entries.Nodup :=
    a.sorted.imp fun {x y} hlt (he : x = y) => String.lt_irrefl y.1 (he ▸ hlt)
  have hperm : a.entries.Perm b.entries :=
    (List.perm_ext_iff_of_nodup (hnodup a) (hnodup b)).mpr fun ⟨key, value⟩ => by
      rw [mem_entries_iff, mem_entries_iff, h]
  have hentries : a.entries = b.entries :=
    hperm.eq_of_pairwise (fun x y _ _ hxy hyx => absurd (String.lt_trans hxy hyx)
      (String.lt_irrefl _)) a.sorted b.sorted
  cases a
  cases b
  exact (mk.injEq ..).mpr hentries

theorem merge_merge_of_keys (h : ∀ key, b.get? key = none → c.get? key = none) :
    (a.merge b).merge c = a.merge b := by
  refine ext_get? fun key => ?_
  rw [get?_merge, get?_merge]
  cases hb : b.get? key with
  | none => simp [h key hb]
  | some value => cases a.get? key <;> rfl

end Annotations

namespace Arena

variable {β : Type} {a b : Arena β} {x id : NodeId} {n : Node β} {key : String}
variable {sources destinations : List NodeId} {merged : Annotations}

/-- What the first of several nodes that is annotated under the key is annotated with there. -/
def firstAnnotation? (a : Arena β) (sources : List NodeId) (key : String) : Option String :=
  sources.findSome? fun id => (a.node? id).bind fun n => n.annotations.get? key

@[simp] theorem get?_mergedAnnotations :
    (a.mergedAnnotations sources).get? key = a.firstAnnotation? sources key := by
  have hfold (merged : Annotations) : (sources.foldl (fun merged id =>
      ((a.node? id).map fun n => merged.merge n.annotations).getD merged) merged).get? key =
        (merged.get? key).or (a.firstAnnotation? sources key) := by
    unfold firstAnnotation?
    induction sources generalizing merged with
    | nil => simp
    | cons id sources ih =>
      rw [List.foldl_cons, ih, List.findSome?_cons]
      cases a.node? id with
      | none => simp
      | some n => cases hkey : n.annotations.get? key <;> simp [hkey]
  rw [mergedAnnotations, hfold]
  simp

/-! ### Nodes completed -/

def complete (merged : Annotations) (a : Arena β) (id : NodeId) : Arena β :=
  a.modifyNode id.index fun n => { n with annotations := n.annotations.merge merged }

def unannotated (a : Arena β) : Arena β :=
  { a with slots := a.slots.map fun s => { s with
      node := s.node.map fun n => { n with annotations := .empty } } }

theorem unannotated_complete : (a.complete merged id).unannotated = a.unannotated := by
  unfold complete modifyNode unannotated
  congr 1
  refine Array.ext_getElem? fun i => ?_
  rw [Array.getElem?_map, Array.getElem?_map, Array.getElem?_modify]
  split
  · cases a.slots[i]? with
    | none => rfl
    | some s => cases hs : s.node <;> simp [hs]
  · rfl

theorem contains_complete : (a.complete merged id).contains x = a.contains x :=
  contains_modifyNode _ _

theorem node?_complete (hid : a.contains id = true) :
    (a.complete merged id).node? x = (a.node? x).map fun n =>
      if x = id then { n with annotations := n.annotations.merge merged } else n := by
  obtain ⟨n, hn⟩ := contains_iff.mp hid
  rw [complete, node?_modifyNode_of_live hn]
  by_cases hx : x = id <;> simp [hx, hn]

/-- An arena is determined by what it is without annotations and by its nodes. -/
theorem ext_unannotated (hu : a.unannotated = b.unannotated) (hn : ∀ x, a.node? x = b.node? x) :
    a = b := by
  have hslots (i : Nat) : a.slots[i]? = b.slots[i]? := by
    have hi := congrArg (fun a : Arena β => a.slots[i]?) hu
    simp only [unannotated, Array.getElem?_map] at hi
    cases hs : a.slots[i]? with
    | none => cases ht : b.slots[i]? <;> simp_all
    | some s =>
      cases ht : b.slots[i]? with
      | none => simp [hs, ht] at hi
      | some t =>
        have hnode := hn ⟨i, s.generation⟩
        simp only [hs, ht, Option.map_some, Option.some.injEq, Slot.mk.injEq] at hi
        simp only [node?, slot?, hs, ht, Option.filter, hi.1, BEq.rfl, if_true,
          Option.bind_some] at hnode
        obtain ⟨hgeneration, hpins, -⟩ := hi
        cases s
        cases t
        simp_all
  have hall : a.slots = b.slots := Array.ext_getElem? hslots
  cases a
  cases b
  simp_all [unannotated]

/-! ### The copy -/

def completeAll (a : Arena β) (merged : Annotations) (ids : List NodeId) : Arena β :=
  ids.foldl (complete merged) a

theorem unannotated_completeAll (ids : List NodeId) :
    (a.completeAll merged ids).unannotated = a.unannotated := by
  unfold completeAll
  induction ids generalizing a with
  | nil => rfl
  | cons id ids ih => exact ih.trans unannotated_complete

theorem contains_completeAll {ids : List NodeId} :
    (a.completeAll merged ids).contains x = a.contains x := by
  unfold completeAll
  induction ids generalizing a with
  | nil => rfl
  | cons id ids ih => exact ih.trans contains_complete

/-- A node that is listed several times is completed once. -/
theorem node?_completeAll (h : ∀ id ∈ destinations, a.contains id = true) :
    (a.completeAll merged destinations).node? x = (a.node? x).map fun n =>
      if x ∈ destinations then { n with annotations := n.annotations.merge merged } else n := by
  unfold completeAll
  induction destinations generalizing a with
  | nil => simp
  | cons id destinations ih =>
    rw [List.foldl_cons, ih fun y hy => contains_complete.trans (h y (List.mem_cons_of_mem _ hy)),
      node?_complete (h id List.mem_cons_self), Option.map_map]
    congr 1
    funext n
    have htwice := Annotations.merge_merge_of_keys (a := n.annotations) (b := merged) fun _ h => h
    by_cases hx : x = id <;> by_cases hy : x ∈ destinations <;> simp [hx, hy, htwice]

/-- The first of several nodes that is gone. -/
def firstGone? (a : Arena β) (ids : List NodeId) : Option NodeId :=
  ids.find? fun id => !a.contains id

theorem firstGone?_eq_none_iff {ids : List NodeId} :
    a.firstGone? ids = none ↔ ∀ id ∈ ids, a.contains id = true := by
  simp [firstGone?]

theorem copyAnnotations_eq : a.copyAnnotations sources destinations =
    match a.firstGone? (sources ++ destinations) with
    | some id => .error (.unknownNode id)
    | none => .ok (a.completeAll (a.mergedAnnotations sources) destinations) := rfl

/-- What completing a node keeps is kept by a copy. -/
theorem copyAnnotations_induction {P : Arena β → Prop} (h : P a)
    (hstep : ∀ b merged id, P b → P (b.complete merged id))
    (e : a.copyAnnotations sources destinations = .ok b) : P b := by
  rw [copyAnnotations_eq] at e
  split at e
  · cases e
  · obtain rfl := Except.ok.inj e
    exact List.foldlRecOn destinations (complete _) h fun c hc id _ => hstep c _ id hc

end Arena

end TensorGraph
