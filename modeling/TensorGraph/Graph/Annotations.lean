/-! # Annotations

Opaque remarks on a node, kept in the order of their keys.
-/

namespace TensorGraph

structure Annotations where
  entries : List (String × String)
  sorted : entries.Pairwise fun a b => a.1 < b.1

namespace Annotations

def empty : Annotations := ⟨[], .nil⟩

def get? (a : Annotations) (key : String) : Option String :=
  (a.entries.find? fun e => e.1 == key).map (·.2)

/-- The entries with a new one at its place, or in the place of the one with its key. -/
def insertEntry (key value : String) : List (String × String) → List (String × String)
  | [] => [(key, value)]
  | (k, v) :: rest =>
    if key < k then (key, value) :: (k, v) :: rest
    else if key = k then (key, value) :: rest
    else (k, v) :: insertEntry key value rest

theorem key_of_mem_insertEntry {key value : String} {entries : List (String × String)}
    {e : String × String} (h : e ∈ insertEntry key value entries) :
    e.1 = key ∨ e ∈ entries := by
  induction entries with
  | nil => simp_all [insertEntry]
  | cons x rest ih =>
    rw [insertEntry] at h
    split at h
    · rcases List.mem_cons.mp h with rfl | h
      · exact .inl rfl
      · exact .inr h
    · split at h
      · rcases List.mem_cons.mp h with rfl | h
        · exact .inl rfl
        · exact .inr (List.mem_cons_of_mem _ h)
      · rcases List.mem_cons.mp h with rfl | h
        · exact .inr List.mem_cons_self
        · exact (ih h).imp_right (List.mem_cons_of_mem _)

theorem sorted_insertEntry (key value : String) {entries : List (String × String)}
    (h : entries.Pairwise fun a b => a.1 < b.1) :
    (insertEntry key value entries).Pairwise fun a b => a.1 < b.1 := by
  induction entries with
  | nil => simp [insertEntry]
  | cons x rest ih =>
    obtain ⟨hx, hrest⟩ := List.pairwise_cons.mp h
    rw [insertEntry]
    split
    · rename_i hlt
      refine List.pairwise_cons.mpr ⟨fun e he => ?_, h⟩
      rcases List.mem_cons.mp he with rfl | he
      · exact hlt
      · exact String.lt_trans hlt (hx e he)
    · rename_i hnlt
      split
      · rename_i heq
        subst heq
        exact List.pairwise_cons.mpr ⟨hx, hrest⟩
      · rename_i hne
        refine List.pairwise_cons.mpr ⟨fun e he => ?_, ih hrest⟩
        rcases key_of_mem_insertEntry he with heq | he
        · rcases String.le_total x.1 key with hle | hle
          · rw [heq]
            exact Decidable.byContradiction fun hn =>
              hne (String.le_antisymm (String.not_lt.mp hn) hle)
          · exact absurd (Decidable.byContradiction fun hn =>
              hne (String.le_antisymm hle (String.not_lt.mp hn))) hnlt
        · exact hx e he

/-- The annotations with the value under the key, in place of any other. -/
def insert (a : Annotations) (key value : String) : Annotations :=
  ⟨insertEntry key value a.entries, sorted_insertEntry key value a.sorted⟩

def insertNew (a : Annotations) (key value : String) : Annotations :=
  if (a.get? key).isSome then a else a.insert key value

/-- The annotations completed by others, under the keys that are not in use yet. -/
def merge (a other : Annotations) : Annotations :=
  other.entries.foldl (fun a e => a.insertNew e.1 e.2) a

end Annotations

end TensorGraph
