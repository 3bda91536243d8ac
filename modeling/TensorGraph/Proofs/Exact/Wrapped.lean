import TensorGraph.Proofs.Exact.Numeric
import TensorGraph.Proofs.Exact.Occurrences

/-! # Wrapped arithmetic

Entries are compared by any relation, under which an entry need not be the same as itself, and the
results of arithmetic are wrapped as in registers of some width. The order of entries, and all other
operations, are as for exact entries. Over such entries a search for the first entry that is the
same may find none, or a position that is none.
-/

namespace TensorGraph

open Grid in
/-- What operations make of entries that are compared like this, in registers of the width. -/
def wrapped {α : Type} [LinearOrder α] (same : Cell α → Cell α → Bool) (width : Nat)
    (ρ : Float → α) : Primitive → List (Grid (Cell α)) → Option (List (Grid (Cell α)))
  | .add, [x, y] => do return [← zipWith? (Cell.arithmetic fun m n => (m + n).bmod (2 ^ width)) x y]
  | .subtract, [x, y] => do
    return [← zipWith? (Cell.arithmetic fun m n => (m - n).bmod (2 ^ width)) x y]
  | .multiply, [x, y] => do
    return [← zipWith? (Cell.arithmetic fun m n => (m * n).bmod (2 ^ width)) x y]
  | .equal, [x, y] => do return [← zipWith? (fun a b => some (.truth (same a b))) x y]
  | .notEqual, [x, y] => do return [← zipWith? (fun a b => some (.truth (!same a b))) x y]
  | p, operands => numeric ρ p operands

/-- A register holds what fits into it. -/
theorem bmod_of_fits {width : Nat} {k : Int} (hk : 0 ≤ k) (hfit : 2 * k < 2 ^ width) :
    k.bmod (2 ^ width) = k :=
  Int.bmod_eq_of_le_mul_two (by push_cast; omega) (by push_cast; omega)

/-- One less than what a register holds is that, or wrapped to the greatest that fits. -/
theorem bmod_pred (width : Nat) (k : Int) :
    (k.bmod (2 ^ width) - 1).bmod (2 ^ width) = k.bmod (2 ^ width) - 1 ∨
      2 ^ width ≤ 2 * (k.bmod (2 ^ width) - 1).bmod (2 ^ width) + 2 := by
  have hpos : 0 < 2 ^ width := Nat.two_pow_pos width
  have hcast : (((2 ^ width : Nat) : Int)) = 2 ^ width := by push_cast; rfl
  have hlow := Int.le_bmod (x := k) hpos
  have hhigh := Int.bmod_lt (x := k) hpos
  generalize k.bmod (2 ^ width) = r at hlow hhigh ⊢
  rw [hcast] at hlow hhigh
  by_cases hfit : -(2 ^ width : Int) ≤ 2 * (r - 1)
  · exact .inl (Int.bmod_eq_of_le_mul_two (by omega) (by omega))
  · right
    have hwrap : (r - 1).bmod (2 ^ width) = r - 1 + 2 ^ width := by
      rw [← Int.add_bmod_right, hcast]
      exact Int.bmod_eq_of_le_mul_two (by omega) (by omega)
    rw [hwrap]
    omega

variable {γ : Type} {same : γ → γ → Bool} {s l : List γ} {c : γ} {i j n w : Nat}

/-! ### Starts of runs -/

/-- Whether an entry differs from the one before it, the first one being marked whether it is there
or not. -/
def startMask (same : γ → γ → Bool) (s : List γ) : List Bool :=
  true :: List.zipWith (fun a b => !same a b) s.tail s

def setPositions (mask : List Bool) : List Nat :=
  (List.range mask.length).filter fun i => mask[i]? = some true

theorem length_startMask (same : γ → γ → Bool) (s : List γ) :
    (startMask same s).length = max 1 s.length := by
  simp [startMask]
  omega

/-- Comparing a list with itself, shifted by one, whatever is put in at its ends. -/
theorem zipWith_shifted {δ : Type} (f : γ → γ → δ) (s : List γ) (c : γ) :
    ((List.zipWith f (s ++ [c]) ([c] ++ s)).drop 1).dropLast = List.zipWith f s.tail s := by
  refine List.ext_getElem (by simp) fun i hi hi' => ?_
  have hlt : i + 1 < s.length := by
    simp at hi'
    omega
  simp [hlt]

/-- Where there is an entry, runs start within the list. -/
theorem lt_of_mem_starts (hs : s ≠ []) (h : i ∈ setPositions (startMask same s)) :
    i < s.length := by
  have hlt := List.mem_range.mp (List.mem_filter.mp h).1
  have hpos := List.length_pos_iff.mpr hs
  rw [length_startMask] at hlt
  omega

theorem same_of_not_mem_setPositions (hi : i + 1 < s.length)
    (h : i + 1 ∉ setPositions (startMask same s)) : same s[i + 1] s[i] = true := by
  have hmask : i + 1 < (startMask same s).length := by
    rw [length_startMask]
    omega
  have hfalse : (startMask same s)[i + 1]? ≠ some true := fun ht =>
    h (List.mem_filter.mpr ⟨List.mem_range.mpr hmask, decide_eq_true ht⟩)
  have hget : (startMask same s)[i + 1]? = some (!same s[i + 1] s[i]) := by
    simp [startMask, List.getElem?_zipWith, hi, Nat.lt_of_succ_lt hi]
  rw [hget] at hfalse
  simpa using hfalse

theorem mem_of_mem_entriesAt {positions : List Nat} (h : c ∈ entriesAt l positions) : c ∈ l := by
  obtain ⟨i, -, hi⟩ := mem_entriesAt.mp h
  exact List.mem_of_getElem? hi

/-- What passes on to an entry from those that it is the same as holds of all entries just if it
holds of those at the starts of runs. -/
theorem forall_entriesAt_starts_iff {P : γ → Prop} (hP : ∀ a b, same a b = true → P b → P a) :
    (∀ c ∈ entriesAt s (setPositions (startMask same s)), P c) ↔ ∀ c ∈ s, P c := by
  constructor
  · intro h c hc
    obtain ⟨i, hi, rfl⟩ := List.mem_iff_getElem.mp hc
    induction i with
    | zero => exact h _ (mem_entriesAt.mpr ⟨0, by simp [setPositions, startMask], by simp [hi]⟩)
    | succ i ih =>
      by_cases hstart : i + 1 ∈ setPositions (startMask same s)
      · exact h _ (mem_entriesAt.mpr ⟨i + 1, hstart, List.getElem?_eq_getElem hi⟩)
      · have hlt := Nat.lt_of_succ_lt hi
        exact hP _ _ (same_of_not_mem_setPositions hi hstart) (ih hlt (List.getElem_mem hlt))
  · exact fun h c hc => h c (mem_of_mem_entriesAt hc)

/-! ### First hits -/

/-- A hit counts its position from one, anything else lies beyond the last position, unless it is
wrapped. -/
def hitWeight (w n : Nat) (hit : Bool) (j : Nat) : Int :=
  ((if hit then (1 : Int) else n + 1) * (j + 1)).bmod (2 ^ w)

theorem hitWeight_true (hfit : 2 * ((j : Int) + 1) < 2 ^ w) : hitWeight w n true j = j + 1 := by
  rw [hitWeight, if_pos rfl, Int.one_mul]
  exact bmod_of_fits (by omega) hfit

theorem hitWeight_false (w n j : Nat) :
    hitWeight w n false j = (((n : Int) + 1) * (j + 1)).bmod (2 ^ w) := rfl

/-- As long as no weight is wrapped below one, none is wrapped at all. -/
theorem fits_of_hitWeight_pos (hfit : 2 * ((n : Int) + 1) < 2 ^ w)
    (h : ∀ i ≤ j, 0 < hitWeight w n false i) : 2 * (((n : Int) + 1) * (j + 1)) < 2 ^ w := by
  have hpos : 0 < 2 ^ w := Nat.two_pow_pos w
  induction j with
  | zero => simpa using hfit
  | succ j ih =>
    have hprev := ih fun i hi => h i (Nat.le_succ_of_le hi)
    have hlast := h (j + 1) le_rfl
    have hsucc : ((n : Int) + 1) * ((j + 1 : Nat) + 1) = (n + 1) * (j + 1) + (n + 1) := by
      push_cast
      ring
    rw [hitWeight_false, hsucc] at hlast
    rw [hsucc]
    generalize ((n : Int) + 1) * (j + 1) = k at hprev hlast ⊢
    by_contra hover
    have hwrap : (k + (n + 1)).bmod (2 ^ w) = k + (n + 1) - 2 ^ w := by
      rw [← Int.sub_bmod_right]
      push_cast
      exact Int.bmod_eq_of_le_mul_two (by push_cast; omega) (by push_cast; omega)
    omega

theorem lt_hitWeight_false (hfit : 2 * ((n : Int) + 1) < 2 ^ w)
    (h : ∀ i ≤ j, 0 < hitWeight w n false i) : (n : Int) < hitWeight w n false j := by
  have hle : ((n : Int) + 1) * 1 ≤ (n + 1) * ((j : Int) + 1) :=
    Int.mul_le_mul_of_nonneg_left (by omega) (by omega)
  rw [hitWeight_false, bmod_of_fits (by omega) (fits_of_hitWeight_pos hfit h)]
  omega

/-- The least weight of the entries of a list, of which some are hits. -/
def leastWeight (w : Nat) (l : List γ) (p : γ → Bool) : Int :=
  ((List.ofFn fun j : Fin l.length => hitWeight w l.length (p (l.get j)) j).min?).getD 0

theorem leastWeight_spec {p : γ → Bool} (w : Nat) (hl : l ≠ []) :
    (∃ j : Fin l.length, hitWeight w l.length (p (l.get j)) j = leastWeight w l p) ∧
      ∀ j : Fin l.length, leastWeight w l p ≤ hitWeight w l.length (p (l.get j)) j := by
  have hne : (List.ofFn fun j : Fin l.length => hitWeight w l.length (p (l.get j)) j) ≠ [] :=
    fun h => hl (List.length_eq_zero_iff.mp (List.ofFn_eq_nil_iff.mp h))
  obtain ⟨m, hm⟩ := Option.isSome_iff_exists.mp (List.isSome_min?_of_ne_nil hne)
  have hleast : leastWeight w l p = m := by rw [leastWeight, hm, Option.getD_some]
  obtain ⟨hmem, hle⟩ := List.min?_eq_some_iff.mp hm
  rw [hleast]
  exact ⟨List.mem_ofFn.mp hmem, fun j => hle _ (List.mem_ofFn.mpr ⟨j, rfl⟩)⟩

def firstHit (w : Nat) (l : List γ) (p : γ → Bool) : Int :=
  (leastWeight w l p - 1).bmod (2 ^ w)

theorem leastWeight_of_firstHit {p : γ → Bool} (hl : l ≠ [])
    (hfit : 2 * ((l.length : Int) + 1) < 2 ^ w) (h : firstHit w l p = i) (hi : i < l.length) :
    leastWeight w l p = i + 1 := by
  obtain ⟨⟨j, hj⟩, -⟩ := leastWeight_spec (p := p) w hl
  have hpred := bmod_pred w ((if p (l.get j) then (1 : Int) else l.length + 1) * ((j : Nat) + 1))
  rw [← hitWeight, hj, ← firstHit] at hpred
  omega

/-- Without a hit the least weight is wrapped, or beyond the last position. -/
theorem exists_hit {p : γ → Bool} (hl : l ≠ []) (hfit : 2 * ((l.length : Int) + 1) < 2 ^ w)
    (hpos : 0 < leastWeight w l p) (hlen : leastWeight w l p ≤ l.length) :
    ∃ c ∈ l, p c = true := by
  by_contra hnone
  obtain ⟨⟨j, hj⟩, hle⟩ := leastWeight_spec (p := p) w hl
  have hmiss (k : Fin l.length) : p (l.get k) = false :=
    Bool.eq_false_iff.mpr fun hk => hnone ⟨_, List.get_mem l k, hk⟩
  have hbeyond : (l.length : Int) < hitWeight w l.length false j := by
    refine lt_hitWeight_false hfit fun k hk => ?_
    have hk' := hle ⟨k, Nat.lt_of_le_of_lt hk j.isLt⟩
    rw [hmiss] at hk'
    exact Int.lt_of_lt_of_le hpos hk'
  rw [hmiss j] at hj
  omega

/-- A position is found just if there is a hit and no other entry has a weight below one. -/
theorem firstHit_lt_iff {p : γ → Bool} (hl : l ≠ []) (hfit : 2 * ((l.length : Int) + 1) < 2 ^ w) :
    (∃ i : Nat, firstHit w l p = i ∧ i < l.length) ↔ (∃ c ∈ l, p c = true) ∧
      ∀ j : Fin l.length, p (l.get j) = true ∨ 0 < hitWeight w l.length false j := by
  obtain ⟨⟨j, hj⟩, hle⟩ := leastWeight_spec (p := p) w hl
  constructor
  · rintro ⟨i, hi, hlen⟩
    have hleast := leastWeight_of_firstHit hl hfit hi hlen
    refine ⟨exists_hit hl hfit (by omega) (by omega), fun k => ?_⟩
    refine (Bool.eq_false_or_eq_true _).imp_right fun hk => ?_
    have hk' := hle k
    rw [hk] at hk'
    omega
  · rintro ⟨⟨c, hc, hpc⟩, hpos⟩
    obtain ⟨i, rfl⟩ := List.mem_iff_get.mp hc
    have hlen := i.isLt
    have hi := hle i
    rw [hpc, hitWeight_true (by omega)] at hi
    have hleast : 0 < leastWeight w l p := by
      rw [← hj]
      cases hpj : p (l.get j) with
      | true =>
        have hlt := j.isLt
        rw [hitWeight_true (by omega)]
        omega
      | false => exact (hpos j).resolve_left (hpj ▸ Bool.false_ne_true)
    refine ⟨(leastWeight w l p - 1).toNat, ?_, by omega⟩
    rw [firstHit, bmod_of_fits (by omega) (by omega)]
    omega

/-- An entry is the same as itself, and the weight of none that is not the same is wrapped below
one. -/
def Findable (same : γ → γ → Bool) (w : Nat) (l : List γ) (c : γ) : Prop :=
  same c c = true ∧ ∀ j : Fin l.length,
    same (l.get j) c = true ∨ 0 < (((l.length : Int) + 1) * (j + 1)).bmod (2 ^ w)

section Same

variable (hsymm : ∀ a b, same a b = same b a)
variable (htrans : ∀ a b c, same a b = true → same b c = true → same a c = true)
include hsymm htrans

theorem Findable.of_same {a b : γ} (hb : Findable same w l b) (h : same a b = true) :
    Findable same w l a := by
  have h' : same b a = true := hsymm a b ▸ h
  exact ⟨htrans a b a h h', fun j => (hb.2 j).imp_left fun hj => htrans _ b a hj h'⟩

theorem firstHit_same_lt_iff (hc : c ∈ l) (hfit : 2 * ((l.length : Int) + 1) < 2 ^ w) :
    (∃ i : Nat, firstHit w l (same · c) = i ∧ i < l.length) ↔ Findable same w l c := by
  rw [firstHit_lt_iff (List.ne_nil_of_mem hc) hfit]
  refine and_congr_left fun _ => ⟨?_, fun h => ⟨c, hc, h⟩⟩
  rintro ⟨c', -, h⟩
  exact htrans c c' c (hsymm c' c ▸ h) h

/-- The entries at the starts of runs are found just if all entries are. -/
theorem forall_firstHit_lt_iff (hfit : 2 * ((l.length : Int) + 1) < 2 ^ w) (hperm : s.Perm l) :
    (∀ c ∈ entriesAt s (setPositions (startMask same s)),
      ∃ i : Nat, firstHit w l (same · c) = i ∧ i < l.length) ↔ ∀ c ∈ l, Findable same w l c := by
  have hstart := forall_entriesAt_starts_iff (s := s) (P := Findable same w l) fun a b hab hb =>
    hb.of_same hsymm htrans hab
  calc
    _ ↔ ∀ c ∈ entriesAt s (setPositions (startMask same s)), Findable same w l c :=
      forall₂_congr fun c hc => firstHit_same_lt_iff hsymm htrans
        (hperm.mem_iff.mp (mem_of_mem_entriesAt hc)) hfit
    _ ↔ ∀ c ∈ s, Findable same w l c := hstart
    _ ↔ ∀ c ∈ l, Findable same w l c := forall_congr' fun c => imp_congr_left hperm.mem_iff

end Same

/-- Where the square of the number of entries fits, an entry that is the same as itself is found. -/
theorem findable_of_fits (hfit : 2 * (((l.length : Int) + 1) * l.length) < 2 ^ w)
    (h : same c c = true) : Findable same w l c := by
  refine ⟨h, fun j => .inr ?_⟩
  have hle : ((l.length : Int) + 1) * ((j : Nat) + 1) ≤ (l.length + 1) * l.length :=
    Int.mul_le_mul_of_nonneg_left (by omega) (by omega)
  have hpos : 0 < ((l.length : Int) + 1) * ((j : Nat) + 1) := Int.mul_pos (by omega) (by omega)
  rwa [bmod_of_fits (by omega) (by omega)]

end TensorGraph
