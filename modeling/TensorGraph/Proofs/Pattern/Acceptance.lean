import TensorGraph.Proofs.Arena.WellFormed
import TensorGraph.Proofs.Pattern.Soundness

/-! # Acceptance

A term accepts a value if what it asks for is there, whichever alternatives that takes. A match
takes the first alternative that fits, and compares where a placeholder is bound already. It still
finds all that is accepted if no two operands of an operation share a placeholder: then nothing that
is bound for one of them matters for the next, and no alternative is better than another.
-/

namespace TensorGraph

variable {g : Graph} {v : Value} {bs : Bindings} {l label : Nat} {kinds : List Kind}
variable {guard : Guard} {t : Term} {ts inputs branches : List Term}

/-- The value is an output of an operation of one of the kinds on exactly these operands. -/
def Arena.Applies {β : Type} (a : Arena β) (kinds : List Kind) (operands : List Value) (v : Value) :
    Prop :=
  ∃ n, a.node? v.node = some n ∧ n.kind ∈ kinds ∧ v.port < n.outputs.length ∧ n.inputs = operands

theorem Arena.Applies.hasOutput_of_mem {β : Type} {a : Arena β} {operands : List Value}
    {w : Value} (h : a.Applies kinds operands v) (ha : a.Linked) (hw : w ∈ operands) :
    a.hasOutput w = true := by
  obtain ⟨n, hn, -, -, rfl⟩ := h
  exact ha.hasOutput_of_input hn hw

theorem Arena.Applies.hasOutput {β : Type} {a : Arena β} {operands : List Value}
    (h : a.Applies kinds operands v) : a.hasOutput v = true := by
  obtain ⟨n, hn, -, hport, -⟩ := h
  exact Arena.hasOutput_iff.mpr ⟨n, hn, hport⟩

namespace Term

mutual
/-- The term fits the value. -/
def Accepts (g : Graph) : Term → Value → Prop
  | input _ guard, v => g.hasOutput v = true ∧ guard.test g v = true
  | wrap _ kinds inputs guard, v =>
    ∃ n, g.Produces kinds inputs guard v n ∧ AcceptAll g inputs n.inputs
  | optional _ kinds inputs guard, v =>
    (∃ n, g.Produces kinds inputs guard v n ∧ AcceptAll g inputs n.inputs) ∨
      AcceptHead g inputs v
  | oneOf _ branches, v => AcceptSome g branches v

def AcceptAll (g : Graph) : List Term → List Value → Prop
  | t :: ts, v :: vs => t.Accepts g v ∧ AcceptAll g ts vs
  | _, _ => True

def AcceptHead (g : Graph) : List Term → Value → Prop
  | [], _ => False
  | t :: _, v => t.Accepts g v

def AcceptSome (g : Graph) : List Term → Value → Prop
  | [], _ => False
  | t :: ts, v => t.Accepts g v ∨ AcceptSome g ts v
end

/-- No placeholder stands in two operands of one operation, or in its own operands. -/
inductive Separate : Term → Prop
  | input {label : Nat} {guard : Guard} : Separate (.input label guard)
  | wrap {label : Nat} {kinds : List Kind} {inputs : List Term} {guard : Guard}
      (own : label ∉ labelsAll inputs)
      (apart : inputs.Pairwise fun s t => s.labels.Disjoint t.labels)
      (operands : ∀ t ∈ inputs, Separate t) : Separate (.wrap label kinds inputs guard)
  | optional {label : Nat} {kinds : List Kind} {inputs : List Term} {guard : Guard}
      (own : label ∉ labelsAll inputs)
      (apart : inputs.Pairwise fun s t => s.labels.Disjoint t.labels)
      (operands : ∀ t ∈ inputs, Separate t) : Separate (.optional label kinds inputs guard)
  | oneOf {label : Nat} {branches : List Term} (operands : ∀ t ∈ branches, Separate t) :
      Separate (.oneOf label branches)

theorem mem_labelsAll_iff : l ∈ labelsAll ts ↔ ∃ t ∈ ts, l ∈ t.labels := by
  induction ts with
  | nil => simp [labelsAll]
  | cons t ts ih => simp [labelsAll, ih]

/-! ### Operations on given operands -/

theorem accepts_optional_iff : (optional label kinds (t :: ts) guard).Accepts g v ↔
    (wrap label kinds (t :: ts) guard).Accepts g v ∨ t.Accepts g v := by
  simp only [Accepts, AcceptHead]

theorem accepts_wrap_iff (hne : inputs ≠ []) : (wrap label kinds inputs guard).Accepts g v ↔
    guard.test g v = true ∧ ∃ operands, g.Applies kinds operands v ∧
      operands.length = inputs.length ∧ AcceptAll g inputs operands := by
  simp only [Accepts]
  constructor
  · rintro ⟨n, hn, hall⟩
    exact ⟨hn.guarded, n.inputs, ⟨n, hn.node, hn.kind, hn.port, rfl⟩, hn.arity.resolve_left hne,
      hall⟩
  · rintro ⟨hguard, -, ⟨n, hn, hkind, hport, rfl⟩, harity, hall⟩
    exact ⟨n, ⟨hn, hkind, hport, .inr harity, hguard⟩, hall⟩

theorem accepts_unary_iff : (wrap label kinds [t] guard).Accepts g v ↔
    guard.test g v = true ∧ ∃ w, g.Applies kinds [w] v ∧ t.Accepts g w := by
  rw [accepts_wrap_iff (List.cons_ne_nil _ _)]
  refine and_congr_right fun _ => ⟨?_, ?_⟩
  · rintro ⟨operands, h, harity, hall⟩
    obtain ⟨w, rfl⟩ := List.length_eq_one_iff.mp harity
    exact ⟨w, h, hall.1⟩
  · rintro ⟨w, h, hw⟩
    exact ⟨[w], h, rfl, hw, trivial⟩

theorem accepts_binary_iff {s t : Term} : (wrap label kinds [s, t] guard).Accepts g v ↔
    guard.test g v = true ∧ ∃ w x, g.Applies kinds [w, x] v ∧ s.Accepts g w ∧ t.Accepts g x := by
  rw [accepts_wrap_iff (List.cons_ne_nil _ _)]
  refine and_congr_right fun _ => ⟨?_, ?_⟩
  · rintro ⟨operands, h, harity, hall⟩
    obtain ⟨w, x, rfl⟩ := List.length_eq_two.mp harity
    exact ⟨w, x, h, hall.1, hall.2.1⟩
  · rintro ⟨w, x, h, hw, hx⟩
    exact ⟨[w, x], h, rfl, hw, hx, trivial⟩

theorem accepts_ternary_iff {r s t : Term} : (wrap label kinds [r, s, t] guard).Accepts g v ↔
    guard.test g v = true ∧ ∃ w x y, g.Applies kinds [w, x, y] v ∧
      r.Accepts g w ∧ s.Accepts g x ∧ t.Accepts g y := by
  rw [accepts_wrap_iff (List.cons_ne_nil _ _)]
  refine and_congr_right fun _ => ⟨?_, ?_⟩
  · rintro ⟨operands, h, harity, hall⟩
    obtain ⟨w, x, y, rfl⟩ := List.length_eq_three.mp harity
    exact ⟨w, x, y, h, hall.1, hall.2.1, hall.2.2.1⟩
  · rintro ⟨w, x, y, h, hw, hx, hy⟩
    exact ⟨[w, x, y], h, rfl, hw, hx, hy, trivial⟩

/-! ### Other placeholders -/

mutual
theorem value?_matchValue : ∀ (t : Term) (v : Value) (bs : Bindings), l ∉ t.labels →
    Bindings.value? (t.matchValue g v bs).2 l = bs.value? l
  | .input label guard, v, bs, hl => by
    unfold matchValue
    split
    · rfl
    · split
      · rw [Bindings.value?_cons, if_neg]
        rintro rfl
        exact hl (by simp [labels])
      · rfl
  | .wrap label kinds inputs guard, v, bs, hl => by
    obtain ⟨hne, hl⟩ := not_or.mp (mt List.mem_cons.mpr hl)
    unfold matchValue
    split
    · rfl
    · split
      · rw [value?_matchInputs inputs _ _ hl, Bindings.value?_cons, if_neg (Ne.symm hne)]
      · rfl
  | .optional label kinds inputs guard, v, bs, hl => by
    obtain ⟨hne, hl⟩ := not_or.mp (mt List.mem_cons.mpr hl)
    unfold matchValue
    split
    · rfl
    · split
      · rename_i operands _
        have hbound := value?_matchInputs inputs operands (⟨label, v, true⟩ :: bs) hl
        split
        · rename_i bound e
          rwa [e, Bindings.value?_cons, if_neg (Ne.symm hne)] at hbound
        · exact value?_matchHead inputs v bs hl
      · exact value?_matchHead inputs v bs hl
  | .oneOf _ branches, v, bs, hl => by
    unfold matchValue
    exact value?_matchBranches branches v bs hl

theorem value?_matchInputs : ∀ (ts : List Term) (vs : List Value) (bs : Bindings),
    l ∉ labelsAll ts → Bindings.value? (matchInputs g ts vs bs).2 l = bs.value? l
  | [], vs, bs, _ => by
    unfold matchInputs
    rfl
  | t :: ts, [], bs, _ => by
    unfold matchInputs
    rfl
  | t :: ts, v :: vs, bs, hl => by
    obtain ⟨ht, hts⟩ := not_or.mp (mt List.mem_append.mpr hl)
    have hbound := value?_matchValue t v bs ht
    unfold matchInputs
    split <;> rename_i bound e <;> rw [e] at hbound
    · exact (value?_matchInputs ts vs bound hts).trans hbound
    · exact hbound

theorem value?_matchHead : ∀ (ts : List Term) (v : Value) (bs : Bindings),
    l ∉ labelsAll ts → Bindings.value? (matchHead g ts v bs).2 l = bs.value? l
  | [], v, bs, _ => by
    unfold matchHead
    rfl
  | t :: ts, v, bs, hl => by
    unfold matchHead
    exact value?_matchValue t v bs (not_or.mp (mt List.mem_append.mpr hl)).1

theorem value?_matchBranches : ∀ (ts : List Term) (v : Value) (bs : Bindings),
    l ∉ labelsAll ts → Bindings.value? (matchBranches g ts v bs).2 l = bs.value? l
  | [], v, bs, _ => by
    unfold matchBranches
    rfl
  | t :: ts, v, bs, hl => by
    obtain ⟨ht, hts⟩ := not_or.mp (mt List.mem_append.mpr hl)
    have hbound := value?_matchValue t v bs ht
    unfold matchBranches
    split
    · rename_i bound e
      rwa [e] at hbound
    · exact value?_matchBranches ts v bs hts
end

/-! ### Nothing is missed -/

def Free (bs : Bindings) (ls : List Nat) : Prop := ∀ l ∈ ls, bs.value? l = none

theorem exists_operands_iff : (∃ operands, g.operands? kinds inputs.length guard v = some operands ∧
    AcceptAll g inputs operands) ↔
      ∃ n, g.Produces kinds inputs guard v n ∧ AcceptAll g inputs n.inputs := by
  constructor
  · rintro ⟨_, ho, h⟩
    obtain ⟨n, hn, rfl⟩ := produces_of_operands? ho
    exact ⟨n, hn, h⟩
  · rintro ⟨n, hn, h⟩
    exact ⟨n.inputs, operands?_of_produces hn, h⟩

theorem Free.cons (h : Free bs (labelsAll inputs)) (hl : label ∉ labelsAll inputs) :
    Free (⟨label, v, true⟩ :: bs) (labelsAll inputs) := by
  intro l hmem
  rw [Bindings.value?_cons, if_neg]
  · exact h l hmem
  · rintro rfl
    exact hl hmem

mutual
theorem matchValue_iff : ∀ (t : Term) (v : Value) (bs : Bindings), t.Separate →
    Free bs t.labels → ((t.matchValue g v bs).1 = true ↔ t.Accepts g v)
  | .input label guard, v, bs, _, hfree => by
    have hnone := hfree label (List.mem_singleton_self _)
    unfold matchValue
    rw [hnone]
    simp only [Accepts]
    split
    · rename_i h
      simpa using h
    · rename_i h
      simpa using h
  | .wrap label kinds inputs guard, v, bs, .wrap own apart operands, hfree => by
    obtain ⟨hnone, hfree⟩ := List.forall_mem_cons.mp hfree
    unfold matchValue
    rw [hnone]
    simp only [Accepts, ← exists_operands_iff]
    cases ho : g.operands? kinds inputs.length guard v with
    | none => simp
    | some values =>
      simpa using matchInputs_iff inputs values _ apart operands (Free.cons hfree own)
  | .optional label kinds inputs guard, v, bs, .optional own apart operands, hfree => by
    obtain ⟨hnone, hfree⟩ := List.forall_mem_cons.mp hfree
    have hhead := matchHead_iff inputs v bs operands hfree
    unfold matchValue
    rw [hnone]
    simp only [Accepts, ← exists_operands_iff]
    cases ho : g.operands? kinds inputs.length guard v with
    | none => simpa using hhead
    | some values =>
      have hinputs := matchInputs_iff inputs values (⟨label, v, true⟩ :: bs) apart operands
        (Free.cons hfree own)
      simp only [Option.some.injEq, exists_eq_left']
      split
      · rename_i bound e
        rw [e] at hinputs
        simp [hinputs.mp rfl]
      · rename_i bound e
        rw [e] at hinputs
        simp only [Bool.false_eq_true, false_iff] at hinputs
        simpa [hinputs] using hhead
  | .oneOf _ branches, v, bs, .oneOf operands, hfree => by
    unfold matchValue
    exact matchBranches_iff branches v bs operands hfree

theorem matchInputs_iff : ∀ (ts : List Term) (vs : List Value) (bs : Bindings),
    (ts.Pairwise fun s t => s.labels.Disjoint t.labels) → (∀ t ∈ ts, t.Separate) →
    Free bs (labelsAll ts) → ((matchInputs g ts vs bs).1 = true ↔ AcceptAll g ts vs)
  | [], vs, bs, _, _, _ => by simp [matchInputs, AcceptAll]
  | t :: ts, [], bs, _, _, _ => by simp [matchInputs, AcceptAll]
  | t :: ts, v :: vs, bs, hapart, hs, hfree => by
    obtain ⟨hapart, hrest⟩ := List.pairwise_cons.mp hapart
    obtain ⟨ht, hts⟩ := List.forall_mem_cons.mp hs
    obtain ⟨hfree, hfrees⟩ := List.forall_mem_append.mp hfree
    have hvalue := matchValue_iff t v bs ht hfree
    have hother : Free (t.matchValue g v bs).2 (labelsAll ts) := by
      intro l hl
      rw [value?_matchValue t v bs]
      · exact hfrees l hl
      · intro hmem
        obtain ⟨u, hu, hl⟩ := mem_labelsAll_iff.mp hl
        exact hapart u hu hmem hl
    unfold matchInputs
    simp only [AcceptAll]
    split <;> rename_i bound e <;> rw [e] at hvalue hother
    · simpa [hvalue.mp rfl] using matchInputs_iff ts vs bound hrest hts hother
    · simp only [Bool.false_eq_true, false_iff] at hvalue
      simp [hvalue]

theorem matchHead_iff : ∀ (ts : List Term) (v : Value) (bs : Bindings), (∀ t ∈ ts, t.Separate) →
    Free bs (labelsAll ts) → ((matchHead g ts v bs).1 = true ↔ AcceptHead g ts v)
  | [], v, bs, _, _ => by simp [matchHead, AcceptHead]
  | t :: ts, v, bs, hs, hfree => by
    unfold matchHead
    exact matchValue_iff t v bs (hs t List.mem_cons_self) (List.forall_mem_append.mp hfree).1

theorem matchBranches_iff : ∀ (ts : List Term) (v : Value) (bs : Bindings),
    (∀ t ∈ ts, t.Separate) → Free bs (labelsAll ts) →
    ((matchBranches g ts v bs).1 = true ↔ AcceptSome g ts v)
  | [], v, bs, _, _ => by simp [matchBranches, AcceptSome]
  | t :: ts, v, bs, hs, hfree => by
    obtain ⟨ht, hts⟩ := List.forall_mem_cons.mp hs
    obtain ⟨hfree, hfrees⟩ := List.forall_mem_append.mp hfree
    have hvalue := matchValue_iff t v bs ht hfree
    unfold matchBranches
    simp only [AcceptSome]
    split <;> rename_i bound e <;> rw [e] at hvalue
    · simp [hvalue.mp rfl]
    · simp only [Bool.false_eq_true, false_iff] at hvalue
      simpa [hvalue] using matchBranches_iff ts v bs hts hfrees
end

/-! ### Labels in order -/

/-- A term without shared placeholders, with labels from the one bound up to below the other. -/
structure Ranges (t : Term) (lo hi : Nat) : Prop where
  separate : t.Separate
  bounds : ∀ l ∈ t.labels, lo ≤ l ∧ l < hi

variable {lo mid hi lo' hi' : Nat} {r s : Term}

theorem Ranges.mono (h : t.Ranges lo hi) (hlo : lo' ≤ lo) (hhi : hi ≤ hi') : t.Ranges lo' hi' :=
  ⟨h.separate, fun l hl => ⟨hlo.trans (h.bounds l hl).1, (h.bounds l hl).2.trans_le hhi⟩⟩

theorem ranges_input : (input label guard).Ranges label (label + 1) := by
  refine ⟨.input, fun l hl => ?_⟩
  obtain rfl := List.mem_singleton.mp hl
  exact ⟨le_rfl, l.lt_succ_self⟩

theorem Ranges.disjoint (hs : s.Ranges lo mid) (ht : t.Ranges lo' hi) (h : mid ≤ lo') :
    s.labels.Disjoint t.labels := fun l hl hl' => by
  have := hs.bounds l hl
  have := ht.bounds l hl'
  omega

section Operation

variable (hall : ∀ t ∈ inputs, t.Ranges lo hi) (hlo : lo ≤ hi)
variable (apart : inputs.Pairwise fun s t => s.labels.Disjoint t.labels)
include hall

theorem bounds_labelsAll : ∀ l ∈ labelsAll inputs, lo ≤ l ∧ l < hi := by
  intro l hl
  obtain ⟨t, ht, hl⟩ := mem_labelsAll_iff.mp hl
  exact (hall t ht).bounds l hl

include hlo

theorem bounds_label_cons : ∀ l ∈ hi :: labelsAll inputs, lo ≤ l ∧ l < hi + 1 := by
  refine List.forall_mem_cons.mpr ⟨⟨hlo, hi.lt_succ_self⟩, fun l hl => ?_⟩
  have := bounds_labelsAll hall l hl
  omega

include apart

theorem ranges_wrap : (wrap hi kinds inputs guard).Ranges lo (hi + 1) :=
  ⟨.wrap (fun hmem => absurd (bounds_labelsAll hall hi hmem).2 (lt_irrefl hi)) apart
    fun t ht => (hall t ht).separate, bounds_label_cons hall hlo⟩

theorem ranges_optional : (optional hi kinds inputs guard).Ranges lo (hi + 1) :=
  ⟨.optional (fun hmem => absurd (bounds_labelsAll hall hi hmem).2 (lt_irrefl hi)) apart
    fun t ht => (hall t ht).separate, bounds_label_cons hall hlo⟩

end Operation

theorem ranges_oneOf (hall : ∀ t ∈ branches, t.Ranges lo hi) :
    (oneOf label branches).Ranges lo hi :=
  ⟨.oneOf fun t ht => (hall t ht).separate, bounds_labelsAll hall⟩

theorem Ranges.pair (hs : s.Ranges lo mid) (ht : t.Ranges mid hi) (hlo : lo ≤ mid)
    (hhi : mid ≤ hi) : (∀ r ∈ [s, t], r.Ranges lo hi) ∧
      [s, t].Pairwise fun s t => s.labels.Disjoint t.labels := by
  constructor
  · simp only [List.forall_mem_cons, List.not_mem_nil, false_implies, implies_true, and_true]
    exact ⟨hs.mono le_rfl hhi, ht.mono hlo le_rfl⟩
  · simpa using hs.disjoint ht le_rfl

theorem Ranges.unary (ht : t.Ranges lo hi) (hlo : lo ≤ hi) :
    (wrap hi kinds [t] guard).Ranges lo (hi + 1) :=
  ranges_wrap (List.forall_mem_singleton.mpr ht) hlo (List.pairwise_singleton _ _)

theorem Ranges.orSkip (ht : t.Ranges lo hi) (hlo : lo ≤ hi) :
    (optional hi kinds [t] guard).Ranges lo (hi + 1) :=
  ranges_optional (List.forall_mem_singleton.mpr ht) hlo (List.pairwise_singleton _ _)

end Term

namespace Pattern

variable {p : Pattern} {id : NodeId}

theorem isSome_matchOutput_iff (hp : p.root.Separate) :
    (p.matchOutput g v).isSome = true ↔ p.root.Accepts g v := by
  rw [← Term.matchValue_iff p.root v [] hp fun _ _ => rfl]
  unfold matchOutput
  split <;> rename_i e <;> simp [e]

theorem isSome_matchNode_iff (hp : p.root.Separate)
    (hout : p.root.Accepts g (id.output 0) → g.hasOutput (id.output 0) = true) :
    (p.matchNode g id).isSome = true ↔ p.root.Accepts g (id.output 0) := by
  unfold matchNode
  split
  · rename_i hn
    refine iff_of_false Bool.false_ne_true fun h => ?_
    obtain ⟨n, hn', -⟩ := Arena.hasOutput_iff.mp (hout h)
    exact Option.some_ne_none n (hn'.symm.trans hn)
  · rename_i n hn
    split
    · rename_i hempty
      refine iff_of_false Bool.false_ne_true fun h => ?_
      obtain ⟨m, hm, hport⟩ := Arena.hasOutput_iff.mp (hout h)
      obtain rfl : n = m := Option.some.inj (hn.symm.trans hm)
      rw [List.isEmpty_iff.mp hempty] at hport
      exact absurd hport (Nat.not_lt_zero _)
    · exact isSome_matchOutput_iff hp

end Pattern

end TensorGraph
