import TensorGraph.Proofs.Exact.Wrapped
import TensorGraph.Proofs.Pass.LoweringValues
import TensorGraph.Proofs.Rewrite.Watching

/-! # Range of the lowering of Unique

What the lowering of Unique gathers from, and at which positions. They are in range, and the mask of
the starts of runs has as many entries as the input, just if the input has an entry and each of them
is found. One that is not the same as itself is not, and in a long list a position may be wrapped.
-/

namespace TensorGraph.UniqueLowering

open Grid

/-- The kinds of what reads at positions, and of what finds these. -/
def searching : List Kind := [.gather, .nonZero]

/-! ### What is staged of these kinds -/

namespace Lowered

variable {D : Type} (run : Primitive → List D → Option (List D))

/-- The entries that start a run are one, the others are zero. -/
def mask (elementType : ElementType) (one zero sorted : D) : Option D := do
  let pad ← constant run (.splat elementType [1] 0)
  let left ← step run (.concat 0) [sorted, pad]
  let right ← step run (.concat 0) [pad, sorted]
  let boundaries ← step run .notEqual [left, right]
  let inside ← step run (.slice 1 (-1) 1 0) [boundaries]
  let first ← constant run (.splat .boolean [1] 1)
  let keep ← step run (.concat 0) [first, inside]
  step run .select [keep, one, zero]

/-- The positions at which the distinct entries occur first, in ascending order. -/
def firstSeen (flat count one scalarOne ascending starts : D) : Option D := do
  let distinct ← step run (.gather 0) [ascending, starts]
  let row ← step run (.unsqueeze [0]) [flat]
  let positions ← firstPositions run row distinct count one scalarOne
  let distinctCount ← lengthOf run positions
  sorted run positions distinctCount

/-- What the searching operations read, in the order of the steps. -/
def searches (elementType : ElementType) (flat : D) : Option (List (Primitive × List D)) := do
  let one ← constant run (.splat .i32 [1] 1)
  let zero ← constant run (.splat .i32 [1] 0)
  let scalarOne ← constant run (.scalar .i32 1)
  let count ← lengthOf run flat
  let ascending ← sorted run flat count
  let mask ← mask run elementType one zero ascending
  let found ← step run (.nonZero .i64) [mask]
  let starts ← step run (.squeeze [0]) [found]
  let ordered ← firstSeen run flat count one scalarOne ascending starts
  let _ ← step run (.gather 0) [flat, ordered]
  return [(.nonZero .i64, [mask]), (.gather 0, [ascending, starts]), (.gather 0, [flat, ordered])]

end Lowered

section Steps

variable {D : Type} {g : Graph} {R : Reading g D} {Γ : Reading.Facts D}
variable {elementType indexType : ElementType} {p : Primitive} {d₁ d₀ ds df dm dz e : D}
variable {x y flat row one zero scalarOne count ascending distinct values : Operand}
variable {L : List (Primitive × List D)}

theorem quiet_step {inputs : List Operand} (h : p.kind ∉ searching) :
    (step g p inputs).Quiet searching := Staging.quiet_makeValue h

theorem quiet_lengthOf : (lengthOf g x).Quiet searching :=
  (quiet_step (by decide)).bind fun _ => quiet_step (by decide)

theorem quiet_sorted : (sorted g x y).Quiet searching := quiet_step (by decide)

theorem quiet_firstPositions :
    (firstPositions g row distinct count one scalarOne).Quiet searching := by
  refine (quiet_step (by decide)).bind fun column => ?_
  refine (quiet_step (by decide)).bind fun equal => ?_
  refine (quiet_step (by decide)).bind fun beyond => ?_
  refine (quiet_step (by decide)).bind fun weights => ?_
  refine (quiet_step (by decide)).bind fun numbers => ?_
  refine (quiet_step (by decide)).bind fun numbers' => ?_
  refine (quiet_step (by decide)).bind fun weighted => ?_
  exact (quiet_step (by decide)).bind fun least => quiet_step (by decide)

theorem quiet_constant {t : Tensor} : (constant g t).Quiet searching :=
  quiet_step (p := .constant t) (by simp [Primitive.kind, searching])

theorem quiet_places : (places g indexType row values count scalarOne).Quiet searching := by
  refine quiet_constant.bind fun one => ?_
  refine quiet_constant.bind fun zero => ?_
  refine (quiet_step (by decide)).bind fun column => ?_
  refine (quiet_step (by decide)).bind fun equal => ?_
  refine (quiet_step (by decide)).bind fun beyond => ?_
  refine (quiet_step (by decide)).bind fun hits => ?_
  refine (quiet_step (by simp [Primitive.kind, searching])).bind fun numbers => ?_
  refine (quiet_step (by decide)).bind fun numbers' => ?_
  refine (quiet_step (by decide)).bind fun weighted => ?_
  exact (quiet_step (by decide)).bind fun greatest => Staging.quiet_make (by decide)

theorem logs_step (inputs : Reading.Facts D) (hp : p.kind ∈ searching) (hin : inputs ⊆ Γ)
    (h : Lowered.step R.run p (inputs.map Prod.snd) = some e) :
    R.Logs searching Γ (step g p (inputs.map Prod.fst)) (fun x => [(x, e)])
      [(p, inputs.map Prod.snd)] :=
  (Reading.logs_make inputs hp hin (stages_make inputs hin h)).bind fun _ =>
    Reading.logs_pure (List.subset_append_left _ _)

theorem logs_runStarts (h₁ : (one, d₁) ∈ Γ) (h₀ : (zero, d₀) ∈ Γ) (hs : (ascending, ds) ∈ Γ)
    (hm : Lowered.mask R.run elementType d₁ d₀ ds = some dm)
    (hz : Lowered.step R.run (.nonZero .i64) [dm] = some dz)
    (he : Lowered.step R.run (.squeeze [0]) [dz] = some e) :
    R.Logs searching Γ (runStarts g elementType one zero ascending) (fun y => [(y, e)])
      [(.nonZero .i64, [dm])] := by
  simp only [Lowered.mask, Option.bind_eq_bind, Option.bind_eq_some_iff] at hm
  obtain ⟨pad, hpad, left, hleft, right, hright, boundaries, hboundaries, inside, hinside, first,
    hfirst, keep, hkeep, hmask⟩ := hm
  refine .quiet_bind (stages_constant hpad) quiet_constant fun x₁ => ?_
  refine .quiet_bind (stages_step [(ascending, ds), (x₁, pad)] (by simp [hs]) hleft)
    (quiet_step (by decide)) fun x₂ => ?_
  refine .quiet_bind (stages_step [(x₁, pad), (ascending, ds)] (by simp [hs]) hright)
    (quiet_step (by decide)) fun x₃ => ?_
  refine .quiet_bind (stages_step [(x₂, left), (x₃, right)] (by simp) hboundaries)
    (quiet_step (by decide)) fun x₄ => ?_
  refine .quiet_bind (stages_step [(x₄, boundaries)] (by simp) hinside)
    (quiet_step (by decide)) fun x₅ => ?_
  refine .quiet_bind (stages_constant hfirst) quiet_constant fun x₆ => ?_
  refine .quiet_bind (stages_step [(x₆, first), (x₅, inside)] (by simp) hkeep)
    (quiet_step (by decide)) fun x₇ => ?_
  refine .quiet_bind (stages_step [(x₇, keep), (one, d₁), (zero, d₀)] (by simp [h₁, h₀]) hmask)
    (quiet_step (by decide)) fun x₈ => ?_
  refine (logs_step [(x₈, dm)] (by decide) (by simp) hz).bind fun x₉ => ?_
  exact .of_quiet (stages_step [(x₉, dz)] (by simp) he) (quiet_step (by decide))

theorem logs_lower (hf : (flat, df) ∈ Γ)
    (h : Lowered.searches R.run elementType df = some L) :
    R.Logs searching Γ (lower g elementType indexType flat) (fun _ => []) L := by
  obtain ⟨one, hone, h⟩ := Option.bind_eq_some_iff.mp h
  refine .quiet_bind (stages_constant hone) quiet_constant fun x₁ => ?_
  obtain ⟨zero, hzero, h⟩ := Option.bind_eq_some_iff.mp h
  refine .quiet_bind (stages_constant hzero) quiet_constant fun x₂ => ?_
  obtain ⟨scalarOne, hscalarOne, h⟩ := Option.bind_eq_some_iff.mp h
  refine .quiet_bind (stages_constant hscalarOne) quiet_constant fun x₃ => ?_
  obtain ⟨count, hcount, h⟩ := Option.bind_eq_some_iff.mp h
  refine .quiet_bind (stages_lengthOf (by simp [hf]) hcount) quiet_lengthOf fun x₄ => ?_
  obtain ⟨ascending, hascending, h⟩ := Option.bind_eq_some_iff.mp h
  refine .quiet_bind (stages_sorted (by simp [hf]) (by simp) hascending) quiet_sorted fun x₅ => ?_
  obtain ⟨mask, hmask, h⟩ := Option.bind_eq_some_iff.mp h
  obtain ⟨found, hfound, h⟩ := Option.bind_eq_some_iff.mp h
  obtain ⟨starts, hstarts, h⟩ := Option.bind_eq_some_iff.mp h
  obtain ⟨ordered, hseen, h⟩ := Option.bind_eq_some_iff.mp h
  obtain ⟨distinct, hdistinct, hseen⟩ := Option.bind_eq_some_iff.mp hseen
  obtain ⟨row, hrow, hseen⟩ := Option.bind_eq_some_iff.mp hseen
  obtain ⟨positions, hpositions, hseen⟩ := Option.bind_eq_some_iff.mp hseen
  obtain ⟨distinctCount, hdistinctCount, hordered⟩ := Option.bind_eq_some_iff.mp hseen
  obtain ⟨values, hvalues, h⟩ := Option.bind_eq_some_iff.mp h
  obtain rfl := Option.some.inj h
  refine (logs_runStarts (by simp) (by simp) (by simp) hmask hfound hstarts).bind fun x₆ => ?_
  refine (logs_step [(x₅, ascending), (x₆, starts)] (by decide) (by simp)
    hdistinct).bind fun x₇ => ?_
  refine .quiet_bind (stages_step [(flat, df)] (by simp [hf]) hrow) (quiet_step (by decide))
    fun x₈ => ?_
  refine .quiet_bind (stages_firstPositions (by simp) (by simp) (by simp) (by simp) (by simp)
    hpositions) quiet_firstPositions fun x₉ => ?_
  refine .quiet_bind (stages_lengthOf (by simp) hdistinctCount) quiet_lengthOf fun x₁₀ => ?_
  refine .quiet_bind (stages_sorted (by simp) (by simp) hordered) quiet_sorted fun x₁₁ => ?_
  refine (Reading.logs_make [(flat, df), (x₁₁, ordered)] (by decide) (by simp [hf])
    (stages_make _ (by simp [hf]) hvalues)).bind fun k => ?_
  refine .quiet_bind (Reading.stages_of_quiet quiet_places) quiet_places fun l => ?_
  exact Reading.logs_pure (List.nil_subset _)

end Steps

/-! ### Values of what is searched -/

namespace Lowered

theorem step_attempt {D : Type} {run : Primitive → List D → Option (List D)} {p : Primitive}
    {ds : List D} {d : D} (h : step run p ds = some d) :
    step (Reading.attempt run) p (ds.map some) = some (some d) := by
  have hds : (ds.map some).mapM id = some ds := mapM_eq_some_iff.mpr (List.map_id _)
  exact congrArg some ((bind_eq_of_eq_some hds rfl).trans h)

section Values

variable {α : Type} [LinearOrder α] {same : Cell α → Cell α → Bool} {w : Nat}
variable {ρ : Float → α} {t : ElementType} {p : Primitive} {l s u : List (Cell α)}
variable {ds : List (Grid (Cell α))} {d : Grid (Cell α)}

/-- The first results of all operations, or nothing in their place. -/
abbrev attempted (same : Cell α → Cell α → Bool) (w : Nat) (ρ : Float → α) :
    Primitive → List (Option (Grid (Cell α))) → Option (List (Option (Grid (Cell α)))) :=
  Reading.attempt (wrapped same w ρ)

theorem step_attempted (h : step (numeric ρ) p ds = some d)
    (hp : wrapped same w ρ p ds = numeric ρ p ds) :
    step (attempted same w ρ) p (ds.map some) = some (some d) := by
  refine step_attempt ?_
  rwa [step, hp]

theorem step_attempted_of_bind (ds : List (Grid (Cell α))) {r : Option (Grid (Cell α))}
    (hr : r = some d) (h : wrapped same w ρ p ds = r >>= fun z => pure [z]) :
    step (attempted same w ρ) p (ds.map some) = some (some d) := by
  subst hr
  exact step_attempt (Option.bind_eq_some_iff.mpr ⟨_, h, rfl⟩)

theorem mask_vec (s : List (Cell α)) :
    mask (attempted same w ρ) t (some (vec [.number 1])) (some (vec [.number 0]))
      (some (vec s)) =
        some (some (vec ((startMask same s).map fun b => if b then .number 1 else .number 0))) := by
  have hmask : (startMask same s).map (Cell.truth : Bool → Cell α) =
      [.truth true] ++ List.zipWith (fun a b => .truth (!same a b)) s.tail s := by
    simp [startMask, List.map_zipWith]
  have hlen (c : Cell α) : ([c] ++ s).length = (s ++ [c]).length := by simp
  unfold mask
  refine bind_eq_of_eq_some (step_attempted (constant_singleton (ρ := ρ) t 0) rfl) ?_
  refine bind_eq_of_eq_some (step_attempted (step_concat (ρ := ρ) s _) rfl) ?_
  refine bind_eq_of_eq_some (step_attempted (step_concat (ρ := ρ) _ s) rfl) ?_
  refine bind_eq_of_eq_some (step_attempted_of_bind [_, _] (zipWith?_vec_vec (hlen _)) rfl) ?_
  refine bind_eq_of_eq_some (step_attempted_of_bind [_] (slice?_inner _) rfl) ?_
  refine bind_eq_of_eq_some (step_attempted (constant_singleton (ρ := ρ) .boolean 1) rfl) ?_
  refine bind_eq_of_eq_some (step_attempted (step_concat (ρ := ρ) _ _) rfl) ?_
  rw [Cell.read_true, zipWith_shifted, ← hmask, ← map_vec]
  exact step_attempted (step_select (select?_vec (spread_vec _) (spread_vec _))) rfl

theorem starts_vec (same : Cell α → Cell α → Bool) (w : Nat) (ρ : Float → α)
    (mask : List Bool) : ∃ z,
    step (attempted same w ρ) (.nonZero .i64)
      [some (vec (mask.map fun b => if b then .number 1 else .number 0))] = some (some z) ∧
    step (attempted same w ρ) (.squeeze [0]) [some z] =
      some (some (vec ((setPositions mask).map fun i : Nat => .number i))) := by
  obtain ⟨z, hz, hpositions⟩ := step_nonZero (ρ := ρ) .i64
    (mask.map fun b => if b then (.number 1 : Cell α) else .number 0)
  refine ⟨z, step_attempted hz rfl, (step_attempted hpositions rfl).trans ?_⟩
  have hset : (List.range mask.length).filter (fun i =>
      ((mask.map fun b => if b then (.number 1 : Cell α) else .number 0)[i]?).any
        (Cell.isSet (ρ 0))) = setPositions mask := by
    refine List.filter_congr fun i hi => ?_
    rw [List.getElem?_map, List.getElem?_eq_getElem (List.mem_range.mp hi)]
    simp [isSet_ite]
  rw [List.length_map, hset]

theorem min?_hitWeight (hit : Cell α → Bool) {q : List (Cell α)} (hl : l ≠ []) (hq : ∀ c, c ∈ q ↔
      ∃ j : Fin l.length, Cell.number (hitWeight w l.length (hit (l.get j)) j) = c) :
    q.min? = some (.number (leastWeight w l hit)) := by
  obtain ⟨⟨j, hj⟩, hle⟩ := leastWeight_spec (p := hit) w hl
  refine List.min?_eq_some_iff.mpr ⟨(hq _).mpr ⟨j, congrArg Cell.number hj⟩, fun c hc => ?_⟩
  obtain ⟨j, rfl⟩ := (hq c).mp hc
  exact Cell.number_le_number.mpr (hle j)

theorem firstHits_vec (hl : l ≠ []) (hfit : 2 * ((l.length : Int) + 1) < 2 ^ w)
    (u : List (Cell α)) :
    firstPositions (attempted same w ρ) (some (table fun (_ : Fin 1) j => l.get j))
      (some (vec u)) (some (scalar (.number l.length))) (some (vec [.number 1]))
      (some (scalar (.number 1))) =
        some (some (vec (u.map fun c => .number (firstHit w l (same · c))))) := by
  unfold firstPositions
  refine bind_eq_of_eq_some (step_attempted_of_bind [_] (unsqueeze?_column_list u) rfl) ?_
  have hequal : zipWith? (fun a b => some (.truth (same a b)))
      (table fun (_ : Fin 1) j => l.get j) (table fun i (_ : Fin 1) => u.get i) =
        some ((table fun i j => same (l.get j) (u.get i)).map (.truth : Bool → Cell α)) := by
    rw [map_table]
    exact zipWith?_table (broadcastSizes_pair (one_broadcastSize _) (broadcastSize_one _))
      (fun i j => stretched?_row _ i j) (fun i j => stretched?_column _ i j) fun _ _ => rfl
  refine bind_eq_of_eq_some (step_attempted_of_bind [_, _] hequal rfl) ?_
  have hbeyond : Cell.arithmetic (fun m n => (m + n).bmod (2 ^ w)) (.number l.length) (.number 1) =
      some (.number (l.length + 1) : Cell α) :=
    congrArg (some ∘ Cell.number) (bmod_of_fits (by omega) hfit)
  refine bind_eq_of_eq_some (step_attempted_of_bind [_, _] (zipWith?_scalar hbeyond) rfl) ?_
  refine bind_eq_of_eq_some (step_attempted (step_select
    (select?_table (spread_scalar _) (spread_scalar _))) rfl) ?_
  refine bind_eq_of_eq_some (step_attempted (step_range (ρ := ρ) rfl l.length) rfl) ?_
  refine bind_eq_of_eq_some (step_attempted_of_bind [_] (unsqueeze?_row _) rfl) ?_
  have hweighted : zipWith? (Cell.arithmetic fun m n => (m * n).bmod (2 ^ w))
      (table fun i j => if same (l.get j) (u.get i) then Cell.number 1
        else .number (l.length + 1))
      (table fun (_ : Fin 1) (j : Fin l.length) => .number ((j : Nat) + 1)) =
        some (table fun i j =>
          (.number (hitWeight w l.length (same (l.get j) (u.get i)) j) : Cell α)) := by
    refine zipWith?_table (broadcastSizes_pair (broadcastSize_one _) (broadcastSize_self _))
      stretched?_table (fun i j => stretched?_row _ i j) fun i j => ?_
    cases same (l.get j) (u.get i) <;> rfl
  refine bind_eq_of_eq_some (step_attempted_of_bind [_, _] hweighted rfl) ?_
  have hleast := reduce?_rows
    (f := fun i j => (.number (hitWeight w l.length (same (l.get j) (u.get i)) j) : Cell α))
    fun i _ hq => min?_hitWeight (same · (u.get i)) hl hq
  refine bind_eq_of_eq_some (step_attempted_of_bind [_] hleast rfl) ?_
  have hmap : List.ofFn (fun i => (.number (leastWeight w l (same · (u.get i))) : Cell α)) =
      u.map fun c => .number (leastWeight w l (same · c)) :=
    List.ofFn_getElem_eq_map u fun c => Cell.number (leastWeight w l (same · c))
  rw [hmap]
  exact step_attempted_of_bind [_, _] (zipWith?_vec_spread (spread_vec _) fun _ _ => rfl) rfl

/-- The greatest position is in range just if there is a hit for each entry. -/
theorem firstSeen_vec (hl : l ≠ []) (hfit : 2 * ((l.length : Int) + 1) < 2 ^ w)
    {starts : List Nat} (hstarts : ∀ i ∈ starts, i < s.length) : ∃ o : List (Cell α),
    o.Perm ((entriesAt s starts).map fun c => .number (firstHit w l (same · c))) ∧
      firstSeen (attempted same w ρ) (some (vec l)) (some (scalar (.number l.length)))
        (some (vec [.number 1])) (some (scalar (.number 1))) (some (vec s))
        (some (vec (starts.map fun i : Nat => .number i))) = some (some (vec o)) := by
  obtain ⟨o, -, hperm, hsorted⟩ := sorted_vec (ρ := ρ)
    ((entriesAt s starts).map fun c => .number (firstHit w l (same · c)))
  refine ⟨o, hperm, ?_⟩
  unfold firstSeen
  refine bind_eq_of_eq_some (step_attempted (step_gather hstarts) rfl) ?_
  refine bind_eq_of_eq_some (step_attempted_of_bind [_] (unsqueeze?_row_list l) rfl) ?_
  refine bind_eq_of_eq_some (firstHits_vec hl hfit _) ?_
  refine bind_eq_of_eq_some (a := some (scalar (.number _))) rfl ?_
  exact step_attempted hsorted rfl

theorem searches_vec (same : Cell α → Cell α → Bool) (w : Nat) (ρ : Float → α)
    (t : ElementType) (l : List (Cell α)) : ∃ (s : List (Cell α)) (o : _),
    s.Perm l ∧ firstSeen (attempted same w ρ) (some (vec l)) (some (scalar (.number l.length)))
      (some (vec [.number 1])) (some (scalar (.number 1))) (some (vec s))
      (some (vec ((setPositions (startMask same s)).map fun i : Nat => .number i))) = some o ∧
    searches (attempted same w ρ) t (some (vec l)) = some
      [(.nonZero .i64, [some (vec ((startMask same s).map fun b =>
          if b then .number 1 else .number 0))]),
        (.gather 0, [some (vec s),
          some (vec ((setPositions (startMask same s)).map fun i : Nat => .number i))]),
        (.gather 0, [some (vec l), o])] := by
  obtain ⟨s, -, hperm, hsorted⟩ := sorted_vec (ρ := ρ) l
  refine ⟨s, _, hperm, rfl, ?_⟩
  unfold searches
  refine bind_eq_of_eq_some (step_attempted (constant_singleton (ρ := ρ) .i32 1) rfl) ?_
  refine bind_eq_of_eq_some (step_attempted (constant_singleton (ρ := ρ) .i32 0) rfl) ?_
  refine bind_eq_of_eq_some (step_attempted (constant_scalar (ρ := ρ) .i32 1) rfl) ?_
  rw [Cell.read_one rfl, Cell.read_zero rfl]
  refine bind_eq_of_eq_some (a := some (scalar (.number l.length))) rfl ?_
  refine bind_eq_of_eq_some (step_attempted hsorted rfl) ?_
  refine bind_eq_of_eq_some (mask_vec s) ?_
  obtain ⟨z, hz, hstarts⟩ := starts_vec same w ρ (startMask same s)
  refine bind_eq_of_eq_some hz ?_
  refine bind_eq_of_eq_some hstarts ?_
  rfl

/-- Positions lie on the axis that is gathered from, and a mask has one entry for each of `n`. -/
def InRange (n : Nat) : Primitive × List (Option (Grid (Cell α))) → Prop
  | (.gather axis, [some data, some places]) => ∃ k length, data.axis? axis = some (k, length) ∧
      ∀ c ∈ places.data, ∃ i : Nat, c = .number i ∧ i < length
  | (.nonZero _, [some keep]) => keep.data.length = n
  | _ => False

omit [LinearOrder α] in
theorem inRange_gather_vec {n : Nat} {places : List (Cell α)} :
    InRange n (.gather 0, [some (vec l), some (vec places)]) ↔
      ∀ c ∈ places, ∃ i : Nat, c = .number i ∧ i < l.length := by
  simp only [InRange, axis?_vec]
  constructor
  · rintro ⟨k, length, h, hplaces⟩
    obtain ⟨rfl, rfl⟩ := Prod.mk.inj (Option.some.inj h)
    exact hplaces
  · exact fun h => ⟨0, l.length, rfl, h⟩

omit [LinearOrder α] in
theorem inRange_mask_iff {n : Nat} {mask : List Bool} :
    InRange n (.nonZero .i64, [some (vec (mask.map fun b =>
      if b then (.number 1 : Cell α) else .number 0))]) ↔ mask.length = n := by
  simp [InRange, vec]

/-- What is gathered at is in range and the mask is as long as the list just if it has an entry and
each one can be found in it. -/
theorem forall_inRange_iff (hsymm : ∀ a b, same a b = same b a)
    (htrans : ∀ a b c, same a b = true → same b c = true → same a c = true)
    (hfit : 2 * ((l.length : Int) + 1) < 2 ^ w)
    {L : List (Primitive × List (Option (Grid (Cell α))))}
    (h : searches (attempted same w ρ) t (some (vec l)) = some L) :
    (∀ x ∈ L, InRange l.length x) ↔ l ≠ [] ∧ ∀ c ∈ l, Findable same w l c := by
  obtain ⟨s, o, hperm, hseen, hsearches⟩ := searches_vec same w ρ t l
  obtain rfl := Option.some.inj (hsearches.symm.trans h)
  have hlen : s.length = l.length := hperm.length_eq
  simp only [List.forall_mem_cons, List.not_mem_nil, false_implies, implies_true, and_true,
    inRange_mask_iff, length_startMask, hlen]
  by_cases hl : l = []
  · simp [hl]
  · have hpos : 0 < l.length := List.length_pos_iff.mpr hl
    have hs : s ≠ [] := List.length_pos_iff.mp (hlen ▸ hpos)
    have hstarts (i : Nat) : i ∈ setPositions (startMask same s) → i < s.length :=
      lt_of_mem_starts hs
    obtain ⟨o, hfound, hseen'⟩ := firstSeen_vec (ρ := ρ) hl hfit hstarts
    obtain rfl := Option.some.inj (hseen'.symm.trans hseen)
    have hplaces : (∀ c ∈ (setPositions (startMask same s)).map fun i : Nat => Cell.number i,
        ∃ i : Nat, c = (.number i : Cell α) ∧ i < s.length) :=
      List.forall_mem_map.mpr fun i hi => ⟨i, rfl, hstarts i hi⟩
    have hplaces' : (∀ c ∈ o, ∃ i : Nat, c = .number i ∧ i < l.length) ↔
        ∀ c ∈ l, Findable same w l c := by
      simp only [hfound.mem_iff, List.forall_mem_map, Cell.number.injEq]
      exact forall_firstHit_lt_iff hsymm htrans hfit hperm
    rw [inRange_gather_vec, inRange_gather_vec, hplaces']
    exact ⟨fun h => ⟨hl, h.2.2⟩, fun h => ⟨by omega, hplaces, h.2⟩⟩

end Values

end Lowered

/-! ### The pass -/

section Pass

variable {g h : Graph} {root : NodeId} {m : Match} {plan : Plan Body} {v : Value}
variable {indexType : ElementType} {spec flat : Spec}

theorem watched_flattened (steps : Steps g root v indexType spec flat plan) :
    steps.flattened.watched searching = [] := by
  have hquiet : (Staging.make g (Primitive.reshape [-1] false) [.graph v]).Quiet searching :=
    Staging.quiet_make (by decide)
  exact (hquiet _ _ _ steps.flatten).2.2

theorem watched_eq_nil (steps : Steps g root v indexType spec flat plan)
    (hone : flat.shape.elementCount? = some 1) : plan.watched searching = [] := by
  have hlower := steps.lower
  rw [decide_eq_true hone] at hlower
  have hquiet : (results g spec.elementType indexType true steps.index).Quiet searching :=
    (Staging.quiet_make (by simp [Primitive.kind, searching])).bind fun _ => Staging.quiet_pure _
  rw [Plan.watched_of_content steps.content_eq, (hquiet _ _ _ hlower).2.2, watched_flattened]

theorem lists_watched {D : Type} {R : Reading g D} {d f : D} {L : List (Primitive × List D)}
    (steps : Steps g root v indexType spec flat plan) (hone : flat.shape.elementCount? ≠ some 1)
    (hd : R.Reads .empty (.graph v) d)
    (hf : Lowered.step R.run (.reshape [-1] false) [d] = some f)
    (hL : Lowered.searches R.run spec.elementType f = some L) :
    R.Lists plan (plan.watched searching) L := by
  have hlower := steps.lower
  rw [decide_eq_false hone] at hlower
  have hflattened := (stages_make [(.graph v, d)] (List.Subset.refl _) hf .empty _ _
    (List.forall_mem_singleton.mpr hd) steps.flatten).1
  obtain ⟨-, nodes, hnodes, hlists⟩ := (logs_lower (by simp) hL).lists _ _ _ hflattened hlower
  rw [Plan.watched_of_content steps.content_eq, hnodes, watched_flattened, List.nil_append]
  exact hlists.grow (steps.content_eq ▸ List.prefix_rfl)

variable {α : Type} [LinearOrder α] {same : Cell α → Cell α → Bool} {w : Nat}
variable {input : Grid (Cell α)}

/-- What the searching nodes of a plan read. -/
def searched (run : Primitive → List (Grid (Cell α)) → Option (List (Grid (Cell α))))
    (σ : Value → Option (Grid (Cell α))) (plan : Plan Body) :
    List (Primitive × List (Option (Grid (Cell α)))) :=
  (plan.watched searching).map fun w => (w.1, w.2.map (plan.value? run σ))

theorem searched_inRange_iff (steps : Steps g root v indexType spec flat plan)
    (hone : flat.shape.elementCount? ≠ some 1) (hsymm : ∀ a b, same a b = same b a)
    (htrans : ∀ a b c, same a b = true → same b c = true → same a c = true)
    (hfit : 2 * ((input.data.length : Int) + 1) < 2 ^ w) (ρ : Float → α)
    (σ : Value → Option (Grid (Cell α))) (hσ : σ v = some input) :
    (∀ x ∈ searched (wrapped same w ρ) σ plan, Lowered.InRange input.data.length x) ↔
      input.data ≠ [] ∧ ∀ c ∈ input.data, Findable same w input.data c := by
  obtain ⟨s, o, -, -, hL⟩ := Lowered.searches_vec same w ρ spec.elementType input.data
  have hflat : Lowered.step (Lowered.attempted same w ρ) (.reshape [-1] false) [some input] =
      some (some (vec input.data)) := Lowered.step_attempted (Lowered.step_flat input) rfl
  have hlists := lists_watched (R := .attempts (wrapped same w ρ) σ g) steps hone
    ⟨trivial, hσ⟩ hflat hL
  rw [searched, hlists.map_value?]
  exact Lowered.forall_inRange_iff hsymm htrans hfit hL

end Pass

/-- Unless the input is known to have one element, and then nothing is searched for, all staged
gathers read at positions of what they gather from, and the mask of the starts of runs is as long
as the input, just if the input has an entry and each of its entries is found. In registers of some
width that hold the number of entries, an entry is found if it is the same as itself and no position
is wrapped that counts against it. -/
theorem searches_in_range {g : Graph} {root : NodeId} {m : Match} {plan : Plan Body}
    (hm : pass.matchAt? g root = some m) (e : pass.rewrite (g.pinned m.nodes) m = .ok plan) :
    ∃ n v indexType axis spec flat,
      Lowers (g.pinned m.nodes) root n v indexType axis spec flat ∧
      (flat.shape.elementCount? = some 1 → plan.watched searching = []) ∧
      (flat.shape.elementCount? ≠ some 1 → ∀ {α : Type} [LinearOrder α]
        (same : Cell α → Cell α → Bool) (w : Nat) (ρ : Float → α)
        (σ : Value → Option (Grid (Cell α))) (input : Grid (Cell α)),
        (∀ a b, same a b = same b a) →
        (∀ a b c, same a b = true → same b c = true → same a c = true) →
        2 * ((input.data.length : Int) + 1) < 2 ^ w → σ v = some input →
        ((∀ x ∈ searched (wrapped same w ρ) σ plan, Lowered.InRange input.data.length x) ↔
          input.data ≠ [] ∧ ∀ c ∈ input.data, Findable same w input.data c)) := by
  obtain ⟨n, v, indexType, axis, spec, flat, hlowers, ⟨steps⟩⟩ :=
    exists_steps Arena.node?_pinned (PatternPass.matchNode_of_matchAt? hm) e
  refine ⟨n, v, indexType, axis, spec, flat, hlowers, watched_eq_nil steps, fun hone => ?_⟩
  intro α _ same w ρ σ input hsymm htrans hfit hσ
  exact searched_inRange_iff steps hone hsymm htrans hfit ρ σ hσ

open Simplification (distinctMatch)
open Pipeline (slotOf first reader f32)

/-- The distinct entries of a list of so many, and their places, are results. -/
def distinctOf (k : Nat) : Graph where
  slots := #[
    slotOf (Primitive.parameter (f32 [k])) [] [⟨f32 [k], [reader 1 0]⟩],
    slotOf (Primitive.unique .i64 (some 0)) [first 0] [⟨⟨.f32, .ofRank 1⟩, [reader 2 0]⟩,
      ⟨⟨.i64, .ofRank 1⟩, []⟩, ⟨⟨.i64, .ofSizes [k]⟩, [reader 3 0]⟩, ⟨⟨.i64, .ofRank 1⟩, []⟩],
    slotOf Primitive.result [first 1] [],
    slotOf Primitive.result [⟨⟨1, 0⟩, 2⟩] []]
  free := []
  parameters := [⟨0, 0⟩]
  results := [⟨2, 0⟩, ⟨3, 0⟩]
  live := 4
  version := 0
  table := .standard

theorem flat_distinctOf {k : Nat} {n : Node Body} {v : Value} {indexType : ElementType}
    {axis : Option Int} {spec flat : Spec}
    (hl : Lowers ((distinctOf k).pinned distinctMatch.nodes) ⟨1, 0⟩ n v indexType axis spec flat) :
    flat.shape = .ranked [(Shape.ofSizes [k]).flatExtent] := by
  obtain rfl := Option.some.inj hl.node?_eq
  obtain rfl : first 0 = v := Option.some.inj hl.head?_eq
  obtain rfl : f32 [k] = spec := Option.some.inj hl.spec?_eq
  rw [hl.flat_eq rfl]
  rfl

/-- Entries are the same if they are equal, but the excepted ones are not the same as any. -/
def sameExcept (excepted : List (Cell Int)) (a b : Cell Int) : Bool :=
  decide (a = b ∧ a ∉ excepted)

theorem sameExcept_comm (l : List (Cell Int)) (a b : Cell Int) :
    sameExcept l a b = sameExcept l b a := by
  unfold sameExcept
  grind

theorem sameExcept_trans (l : List (Cell Int)) (a b c : Cell Int) (h : sameExcept l a b = true)
    (h' : sameExcept l b c = true) : sameExcept l a c = true := by
  obtain ⟨rfl, -⟩ := of_decide_eq_true h
  exact h'

/-- Four entries, with arithmetic on 32 bits. -/
theorem searches_in_range_four : ∃ plan,
    pass.matchAt? (distinctOf 4) ⟨1, 0⟩ = some distinctMatch ∧
      pass.rewrite ((distinctOf 4).pinned distinctMatch.nodes) distinctMatch = .ok plan ∧
      ∀ x ∈ searched (wrapped (sameExcept []) 32 fun _ => 0) (fun _ => some listOfFour) plan,
        Lowered.InRange 4 x := by
  have hm : pass.matchAt? (distinctOf 4) ⟨1, 0⟩ = some distinctMatch := by rfl
  obtain ⟨plan, e⟩ : ∃ plan,
      pass.rewrite ((distinctOf 4).pinned distinctMatch.nodes) distinctMatch = .ok plan := ⟨_, rfl⟩
  obtain ⟨n, v, indexType, axis, spec, flat, hlowers, -, hrange⟩ := searches_in_range hm e
  have hone : flat.shape.elementCount? ≠ some 1 := by
    rw [flat_distinctOf hlowers]
    decide
  refine ⟨plan, hm, e, (hrange hone _ 32 _ _ listOfFour (sameExcept_comm [])
    (sameExcept_trans []) (by decide) rfl).mpr ⟨List.cons_ne_nil _ _, fun c _ => ?_⟩⟩
  exact findable_of_fits (by decide) (by simp [sameExcept])

theorem wellFormed_distinctOf_zero : (distinctOf 0).WellFormed :=
  Arena.wellFormed_of_validate (by cbv) (by decide) (by decide) (by decide)
    (fun _ h => absurd h List.not_mem_nil) (by cbv)

theorem searched_distinctOf_iff {k : Nat} {plan : Plan Body} (excepted : List (Cell Int))
    (hk : (Shape.ranked [(Shape.ofSizes [k]).flatExtent]).elementCount? ≠ some 1)
    (input : Grid (Cell Int)) (hfit : 2 * ((input.data.length : Int) + 1) < 2 ^ 32)
    (e : pass.rewrite ((distinctOf k).pinned distinctMatch.nodes) distinctMatch = .ok plan) :
    (∀ x ∈ searched (wrapped (sameExcept excepted) 32 fun _ => 0) (fun _ => some input) plan,
      Lowered.InRange input.data.length x) ↔
        input.data ≠ [] ∧ ∀ c ∈ input.data, Findable (sameExcept excepted) 32 input.data c := by
  have hm : pass.pattern.matchNode (distinctOf k) ⟨1, 0⟩ = some distinctMatch := rfl
  obtain ⟨n, v, indexType, axis, spec, flat, hlowers, ⟨steps⟩⟩ :=
    exists_steps Arena.node?_pinned hm e
  refine searched_inRange_iff steps ?_ (sameExcept_comm _) (sameExcept_trans _) hfit _ _ rfl
  rwa [flat_distinctOf hlowers]

/-- Zeros with a one behind them. -/
def stepped (k : Nat) : List (Cell Int) := List.replicate k (.element 0) ++ [.element 1]

theorem length_stepped (k : Nat) : (stepped k).length = k + 1 := by
  simp [stepped]

/-- The zeros are not found if the weight of the last entry is wrapped below one. -/
theorem pos_of_findable_stepped {k : Nat}
    (h : Findable (sameExcept []) 32 (stepped k) (.element 0)) :
    0 < (((k + 1 : Nat) + 1 : Int) * (k + 1)).bmod (2 ^ 32) := by
  have hlast := h.2 ⟨k, by rw [length_stepped]; omega⟩
  have hget : (stepped k).get ⟨k, by rw [length_stepped]; omega⟩ = .element 1 := by
    simp [stepped]
  rw [hget] at hlast
  simpa only [length_stepped] using hlast.resolve_left (by decide)

/-- A list that is known to be empty is lowered, and the mask of the starts of runs has an entry all
the same. Where an entry is not the same as itself, a list is searched beyond its end. Where a
weight of one of many entries is wrapped, it is searched before its start. -/
theorem searches_out_of_range : (distinctOf 0).WellFormed ∧
    pass.matchAt? (distinctOf 0) ⟨1, 0⟩ = some distinctMatch ∧
    (∃ plan, pass.rewrite ((distinctOf 0).pinned distinctMatch.nodes) distinctMatch = .ok plan ∧
      ¬ ∀ x ∈ searched (wrapped (sameExcept []) 32 fun _ => 0) (fun _ => some (vec [])) plan,
        Lowered.InRange 0 x) ∧
    (∃ plan, pass.rewrite ((distinctOf 4).pinned distinctMatch.nodes) distinctMatch = .ok plan ∧
      ¬ ∀ x ∈ searched (wrapped (sameExcept [.element 3]) 32 fun _ => 0)
        (fun _ => some listOfFour) plan, Lowered.InRange 4 x) ∧
    ∃ plan,
      pass.rewrite ((distinctOf 46341).pinned distinctMatch.nodes) distinctMatch = .ok plan ∧
      ¬ ∀ x ∈ searched (wrapped (sameExcept []) 32 fun _ => 0)
        (fun _ => some (vec (stepped 46340))) plan, Lowered.InRange 46341 x := by
  obtain ⟨none, e⟩ : ∃ plan,
      pass.rewrite ((distinctOf 0).pinned distinctMatch.nodes) distinctMatch = .ok plan := ⟨_, rfl⟩
  obtain ⟨four, e'⟩ : ∃ plan,
      pass.rewrite ((distinctOf 4).pinned distinctMatch.nodes) distinctMatch = .ok plan := ⟨_, rfl⟩
  obtain ⟨many, e''⟩ : ∃ plan, pass.rewrite ((distinctOf 46341).pinned distinctMatch.nodes)
      distinctMatch = .ok plan := ⟨_, rfl⟩
  refine ⟨wellFormed_distinctOf_zero, by rfl, ⟨none, e, fun h => ?_⟩, ⟨four, e', fun h => ?_⟩,
    many, e'', fun h => ?_⟩
  · exact ((searched_distinctOf_iff [] (by decide) (vec []) (by decide) e).mp h).1 rfl
  · obtain ⟨-, h⟩ :=
      (searched_distinctOf_iff [.element 3] (by decide) listOfFour (by decide) e').mp h
    obtain ⟨hself, -⟩ := h (.element 3) List.mem_cons_self
    exact absurd hself (by decide)
  · have hlen : (vec (stepped 46340)).data.length = 46341 := length_stepped 46340
    have hfit : 2 * (((vec (stepped 46340)).data.length : Int) + 1) < 2 ^ 32 := by
      rw [hlen]
      decide
    rw [← hlen] at h
    obtain ⟨-, h⟩ := (searched_distinctOf_iff [] (by decide) (vec (stepped 46340)) hfit e'').mp h
    have hzero : .element 0 ∈ stepped 46340 :=
      List.mem_append_left _ (List.mem_replicate.mpr ⟨Nat.succ_ne_zero _, rfl⟩)
    exact absurd (pos_of_findable_stepped (h _ hzero)) (by decide)

end TensorGraph.UniqueLowering
