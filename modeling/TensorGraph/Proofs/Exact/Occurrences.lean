import Mathlib.Data.List.Induction
import Mathlib.Data.List.Nodup
import Mathlib.Data.List.Sort
import Mathlib.Order.Basic

/-! # Occurrences in lists

Positions in a list at which something is new: where a run of equal entries starts in a sorted list,
and where an entry occurs for the first time in any list. The entries there are the distinct ones.
-/

namespace TensorGraph

variable {γ : Type} {l d s : List γ} {c : γ} {i j : Nat} {positions : List Nat}

def entriesAt (l : List γ) (positions : List Nat) : List γ := positions.filterMap (l[·]?)

theorem mem_entriesAt : c ∈ entriesAt l positions ↔ ∃ i ∈ positions, l[i]? = some c :=
  List.mem_filterMap

theorem map_getElem? (h : ∀ i ∈ positions, i < l.length) :
    positions.map (l[·]?) = (entriesAt l positions).map some := by
  induction positions with
  | nil => rfl
  | cons i positions ih =>
    obtain ⟨hi, h⟩ := List.forall_mem_cons.mp h
    simp only [entriesAt] at ih ⊢
    simp [ih h, hi]

theorem length_entriesAt (h : ∀ i ∈ positions, i < l.length) :
    (entriesAt l positions).length = positions.length := by
  simpa using (congrArg List.length (map_getElem? h)).symm

theorem getElem?_entriesAt (h : ∀ i ∈ positions, i < l.length) :
    (entriesAt l positions)[i]? = positions[i]?.bind (l[·]?) := by
  have hget := congrArg (·[i]?) (map_getElem? h)
  simp only [List.getElem?_map] at hget
  cases hp : positions[i]? with
  | none =>
    rw [hp] at hget
    exact Option.map_eq_none_iff.mp hget.symm
  | some j =>
    rw [hp, Option.map_some] at hget
    obtain ⟨c, hc, hj⟩ := Option.map_eq_some_iff.mp hget.symm
    rw [hc, Option.bind_some, ← hj]

variable [LinearOrder γ]

theorem idxOf_eq_iff (hi : i < l.length) :
    l.idxOf c = i ↔ l[i]? = some c ∧ ∀ j < i, l[j]? ≠ some c := by
  rw [List.idxOf, List.findIdx_eq hi]
  constructor
  · rintro ⟨hc, hbefore⟩
    refine ⟨(List.getElem?_eq_getElem hi).trans (congrArg some (eq_of_beq hc)), fun j hj => ?_⟩
    rw [List.getElem?_eq_getElem (hj.trans hi)]
    exact fun h => ne_of_beq_false (hbefore j hj) (Option.some.inj h)
  · rintro ⟨hc, hbefore⟩
    rw [List.getElem?_eq_getElem hi] at hc
    refine ⟨beq_iff_eq.mpr (Option.some.inj hc), fun j hj => beq_false_of_ne fun h => ?_⟩
    exact hbefore j hj ((List.getElem?_eq_getElem (hj.trans hi)).trans (congrArg some h))

/-! ### Runs -/

def startsOfRuns (s : List γ) : List Nat :=
  (List.range s.length).filter fun i => i = 0 ∨ s[i - 1]? ≠ s[i]?

theorem mem_startsOfRuns : i ∈ startsOfRuns s ↔ i < s.length ∧ (i = 0 ∨ s[i - 1]? ≠ s[i]?) := by
  simp [startsOfRuns]

theorem mem_entriesAt_startsOfRuns : c ∈ entriesAt s (startsOfRuns s) ↔ c ∈ s := by
  rw [mem_entriesAt]
  constructor
  · rintro ⟨i, -, hi⟩
    exact List.mem_of_getElem? hi
  · intro hc
    have hlt := List.idxOf_lt_length_of_mem hc
    obtain ⟨hat, hbefore⟩ := (idxOf_eq_iff hlt).mp rfl
    refine ⟨s.idxOf c, mem_startsOfRuns.mpr ⟨hlt, or_iff_not_imp_left.mpr fun hpos => ?_⟩, hat⟩
    rw [hat]
    exact hbefore _ (by omega)

theorem getElem_le_of_pairwise (hs : s.Pairwise (· ≤ ·)) (hij : i ≤ j) (hj : j < s.length) :
    s[i] ≤ s[j] := by
  rcases Nat.eq_or_lt_of_le hij with rfl | hlt
  · exact le_rfl
  · exact List.pairwise_iff_getElem.mp hs i j (hij.trans_lt hj) hj hlt

theorem nodup_entriesAt_startsOfRuns (hs : s.Pairwise (· ≤ ·)) :
    (entriesAt s (startsOfRuns s)).Nodup := by
  refine List.pairwise_filterMap.mpr (((List.pairwise_lt_range).filter _).imp_of_mem ?_)
  rintro i j - hj hij c hi c' hj' rfl
  obtain ⟨hlt, hzero | hstart⟩ := mem_startsOfRuns.mp hj
  · omega
  · obtain ⟨hlt', rfl⟩ := List.getElem?_eq_some_iff.mp hi
    rw [hj', List.getElem?_eq_getElem (by omega)] at hstart
    rw [List.getElem?_eq_getElem hlt] at hj'
    -- the entry before the later start lies between two equal ones
    refine hstart (congrArg some (le_antisymm ?_ ?_))
    · rw [← Option.some.inj hj']
      exact getElem_le_of_pairwise hs (Nat.sub_le j 1) hlt
    · exact getElem_le_of_pairwise hs (Nat.le_sub_one_of_lt hij) _

/-! ### First occurrences -/

/-- The positions at which an entry occurs for the first time. -/
def firstOccurrences (l : List γ) : List Nat :=
  (List.range l.length).filter fun i => (l[i]?).any fun c => l.idxOf c = i

theorem mem_firstOccurrences : i ∈ firstOccurrences l ↔ ∃ c ∈ l, l.idxOf c = i := by
  simp only [firstOccurrences, List.mem_filter, List.mem_range, Option.any_eq_true,
    decide_eq_true_eq]
  constructor
  · rintro ⟨-, c, hc, hi⟩
    exact ⟨c, List.mem_of_getElem? hc, hi⟩
  · rintro ⟨c, hc, rfl⟩
    exact ⟨List.idxOf_lt_length_of_mem hc, c, List.getElem?_idxOf hc, rfl⟩

theorem pairwise_firstOccurrences : (firstOccurrences l).Pairwise (· < ·) :=
  List.pairwise_lt_range.filter _

theorem firstOccurrences_concat (l : List γ) (c : γ) : firstOccurrences (l ++ [c]) =
    firstOccurrences l ++ if c ∈ l then [] else [l.length] := by
  rw [firstOccurrences, List.length_append, List.length_singleton, List.range_succ,
    List.filter_append]
  congr 1
  · refine List.filter_congr fun i hi => ?_
    have hlt := List.mem_range.mp hi
    rw [List.getElem?_append_left hlt, List.getElem?_eq_getElem hlt, Option.any_some,
      Option.any_some, List.idxOf_append_of_mem (List.getElem_mem hlt)]
  · rw [List.filter_singleton, List.getElem?_concat_length, Option.any_some]
    by_cases hc : c ∈ l
    · have hlt := List.idxOf_lt_length_of_mem hc
      rw [List.idxOf_append_of_mem hc, if_pos hc, decide_eq_false hlt.ne]
      rfl
    · simp [List.idxOf_append_of_notMem hc, hc]

theorem eraseDups_concat (l : List γ) (c : γ) :
    (l ++ [c]).eraseDups = l.eraseDups ++ if c ∈ l then [] else [c] := by
  rw [List.eraseDups_append]
  by_cases hc : c ∈ l
  · simp [hc, List.removeAll]
  · simp [hc, List.removeAll, List.eraseDups_cons]

theorem nodup_eraseDups (l : List γ) : l.eraseDups.Nodup := by
  induction l using List.reverseRecOn with
  | nil => exact List.nodup_nil
  | append_singleton l c ih =>
    rw [eraseDups_concat]
    split
    · rwa [List.append_nil]
    · rename_i hc
      exact ih.append (List.nodup_singleton c)
        (List.disjoint_singleton.mpr fun h => hc (List.mem_eraseDups.mp h))

theorem entriesAt_firstOccurrences (l : List γ) :
    entriesAt l (firstOccurrences l) = l.eraseDups := by
  induction l using List.reverseRecOn with
  | nil => rfl
  | append_singleton l c ih =>
    have hprefix : entriesAt (l ++ [c]) (firstOccurrences l) =
        entriesAt l (firstOccurrences l) := by
      refine List.filterMap_congr fun i hi => ?_
      obtain ⟨c, hc, rfl⟩ := mem_firstOccurrences.mp hi
      exact List.getElem?_append_left (List.idxOf_lt_length_of_mem hc)
    rw [eraseDups_concat, ← ih, ← hprefix, firstOccurrences_concat, entriesAt,
      List.filterMap_append]
    congr 1
    by_cases hc : c ∈ l <;> simp [hc]

theorem map_idxOf_perm (hd : d.Nodup) (hmem : ∀ c, c ∈ d ↔ c ∈ l) :
    (d.map l.idxOf).Perm (firstOccurrences l) := by
  refine (List.perm_ext_iff_of_nodup ?_ pairwise_firstOccurrences.nodup).mpr fun i => ?_
  · exact hd.map_on fun a ha b _ hab => (List.idxOf_inj ((hmem a).mp ha)).mp hab
  · simp only [List.mem_map, mem_firstOccurrences, hmem]

end TensorGraph
