import TensorGraph.Proofs.Pattern.Bindings
import TensorGraph.Proofs.Pattern.Inversion

/-! # Soundness and completeness of matching

A term holds at a value under an assignment of values to its placeholders. A match returns an
assignment under which the root holds, and nothing in it is left over from an alternative that was
given up. Where a term leaves no choice, a match is found if there is one.

The labels matter: a placeholder that is bound already is compared only, so what it was bound to
must be what the same placeholder matches here. This is so for the terms of a builder, where a
label is given once and the inputs of a placeholder have smaller ones.
-/

namespace TensorGraph

variable {g : Graph} {σ : Nat → Option Value} {v : Value} {vs : List Value} {bs bs' : Bindings}
variable {label : Nat} {kinds : List Kind} {guard : Guard} {t : Term} {ts inputs : List Term}
variable {used : List Nat} {n : Node Body}

/-! ### The meaning of a term -/

/-- The producer of a value is an operation of one of the kinds, with as many inputs as are
declared, if any are, and the guard passes at the value. -/
structure Graph.Produces (g : Graph) (kinds : List Kind) (inputs : List Term) (guard : Guard)
    (v : Value) (n : Node Body) : Prop where
  node : g.node? v.node = some n
  kind : n.kind ∈ kinds
  port : v.port < n.outputs.length
  arity : inputs = [] ∨ n.inputs.length = inputs.length
  guarded : guard.test g v = true

mutual
/-- The term holds at the value under the assignment. The list has the labels of the placeholders
that this rests on. -/
inductive Term.Holds (g : Graph) (σ : Nat → Option Value) : Term → Value → List Nat → Prop
  | input {label : Nat} {guard : Guard} {v : Value} (bound : σ label = some v)
      (output : g.hasOutput v = true) (guarded : guard.test g v = true) :
      Holds g σ (.input label guard) v [label]
  | wrap {label : Nat} {kinds : List Kind} {inputs : List Term} {guard : Guard} {v : Value}
      {n : Node Body} {used : List Nat} (bound : σ label = some v)
      (produces : g.Produces kinds inputs guard v n) (operands : HoldAll g σ inputs n.inputs used) :
      Holds g σ (.wrap label kinds inputs guard) v (label :: used)
  | optional {label : Nat} {kinds : List Kind} {inputs : List Term} {guard : Guard} {v : Value}
      {n : Node Body} {used : List Nat} (bound : σ label = some v)
      (produces : g.Produces kinds inputs guard v n) (operands : HoldAll g σ inputs n.inputs used) :
      Holds g σ (.optional label kinds inputs guard) v (label :: used)
  | skip {label : Nat} {kinds : List Kind} {t : Term} {ts : List Term} {guard : Guard} {v : Value}
      {used : List Nat} (first : Holds g σ t v used) :
      Holds g σ (.optional label kinds (t :: ts) guard) v used
  | oneOf {label : Nat} {t : Term} {branches : List Term} {v : Value} {used : List Nat}
      (mem : t ∈ branches) (branch : Holds g σ t v used) : Holds g σ (.oneOf label branches) v used

inductive Term.HoldAll (g : Graph) (σ : Nat → Option Value) :
    List Term → List Value → List Nat → Prop
  | nil {vs : List Value} : HoldAll g σ [] vs []
  | cons {t : Term} {ts : List Term} {v : Value} {vs : List Value} {used used' : List Nat}
      (head : t.Holds g σ v used) (tail : HoldAll g σ ts vs used') :
      HoldAll g σ (t :: ts) (v :: vs) (used ++ used')
end

/-! ### The terms of a builder -/

/-- The terms that calls of a builder have made so far, the newest first. A call takes terms that
were made before. -/
inductive Builder.Made : List Term → Prop
  | start : Made []
  | input {ts : List Term} (guard : Guard) (made : Made ts) :
      Made (((Builder.input guard).run ts.length).1 :: ts)
  | wrap {ts : List Term} (kinds : List Kind) {inputs : List Term} (guard : Guard) (made : Made ts)
      (earlier : inputs ⊆ ts) : Made (((Builder.wrap kinds inputs guard).run ts.length).1 :: ts)
  | optional {ts : List Term} (kinds : List Kind) {inputs : List Term} (guard : Guard)
      (made : Made ts) (earlier : inputs ⊆ ts) :
      Made (((Builder.optional kinds inputs guard).run ts.length).1 :: ts)
  | oneOf {ts : List Term} {branches : List Term} (made : Made ts) (earlier : branches ⊆ ts) :
      Made (((Builder.oneOf branches).run ts.length).1 :: ts)

def Pattern.Built (p : Pattern) : Prop :=
  ∃ ts, Builder.Made ts ∧ p.root ∈ ts ∧ p.size = ts.length

/-- Terms that are told apart by their labels, and with them the terms they are made from. -/
structure Term.Scope (ts : List Term) : Prop where
  unique : ∀ t ∈ ts, ∀ u ∈ ts, t.label = u.label → t = u
  parts : ∀ t ∈ ts, ∀ u ∈ t.parts, u ∈ ts ∧ u.label < t.label

namespace Builder

theorem Made.cases_term (h : Made ts) : ts = [] ∨
    ∃ t us, ts = t :: us ∧ Made us ∧ t.label = us.length ∧ t.parts ⊆ us := by
  cases h with
  | start => exact .inl rfl
  | input guard made => exact .inr ⟨_, _, rfl, made, rfl, List.nil_subset _⟩
  | wrap kinds guard made earlier => exact .inr ⟨_, _, rfl, made, rfl, earlier⟩
  | optional kinds guard made earlier => exact .inr ⟨_, _, rfl, made, rfl, earlier⟩
  | oneOf made earlier => exact .inr ⟨_, _, rfl, made, rfl, earlier⟩

theorem Made.label_lt : {ts : List Term} → Made ts → ∀ t ∈ ts, t.label < ts.length
  | [], _, _, ht => absurd ht List.not_mem_nil
  | t :: ts, h, u, hu => by
    obtain hnil | ⟨_, _, e, made, hlabel, -⟩ := h.cases_term
    · cases hnil
    · cases e
      rw [List.length_cons]
      rcases List.mem_cons.mp hu with rfl | hu
      · exact hlabel ▸ Nat.lt_succ_self _
      · exact Nat.lt_succ_of_lt (made.label_lt u hu)

theorem Made.scope : {ts : List Term} → Made ts → Term.Scope ts
  | [], _ => ⟨fun _ ht => absurd ht List.not_mem_nil, fun _ ht => absurd ht List.not_mem_nil⟩
  | t :: ts, h => by
    obtain hnil | ⟨_, _, e, made, hlabel, hparts⟩ := h.cases_term
    · cases hnil
    cases e
    have hts := made.scope
    have hne : ∀ u ∈ ts, t.label ≠ u.label := fun u hu e =>
      absurd (made.label_lt u hu) (by omega)
    refine ⟨fun u hu w hw e => ?_, fun u hu w hw => ?_⟩
    · rcases List.mem_cons.mp hu with rfl | hu' <;> rcases List.mem_cons.mp hw with rfl | hw'
      · rfl
      · exact absurd e (hne w hw')
      · exact absurd e.symm (hne u hu')
      · exact hts.unique u hu' w hw' e
    · rcases List.mem_cons.mp hu with rfl | hu
      · exact ⟨List.mem_cons_of_mem _ (hparts hw), hlabel ▸ made.label_lt w (hparts hw)⟩
      · exact (hts.parts u hu w hw).imp_left (List.mem_cons_of_mem _)

end Builder

/-! ### Bindings -/

namespace Bindings

def Within (bs : Bindings) (σ : Nat → Option Value) : Prop := ∀ b ∈ bs, σ b.label = some b.value

theorem Within.of_suffix (h : bs'.Within σ) (hs : bs <:+ bs') : bs.Within σ :=
  fun b hb => h b (hs.subset hb)

theorem Within.cons (h : bs.Within σ) {b : Binding} (hb : σ b.label = some b.value) :
    Bindings.Within (b :: bs) σ :=
  List.forall_mem_cons.mpr ⟨hb, h⟩

theorem exists_mem_of_value? : {bs : Bindings} → bs.value? label = some v →
    ∃ b ∈ bs, b.label = label ∧ b.value = v
  | [], e => by cases e
  | b :: bs, e => by
    rw [value?_cons] at e
    split at e
    · rename_i h
      exact ⟨b, List.mem_cons_self, h, Option.some.inj e⟩
    · exact (exists_mem_of_value? e).imp fun _ => And.imp_left (List.mem_cons_of_mem _)

theorem Within.beq_of_value? {w : Value} (h : bs.Within σ) (hw : bs.value? label = some w)
    (hv : σ label = some v) : (w == v) = true := by
  obtain ⟨b, hb, rfl, rfl⟩ := exists_mem_of_value? hw
  exact beq_iff_eq.mpr (Option.some.inj ((h b hb).symm.trans hv))

theorem value?_eq_none : {bs : Bindings} → bs.value? label = none →
    label ∉ bs.map Binding.label
  | [], _ => List.not_mem_nil
  | b :: bs, e => by
    rw [value?_cons] at e
    split at e
    · cases e
    · rename_i h
      exact List.not_mem_cons_of_ne_of_not_mem (Ne.symm h) (value?_eq_none e)

/-- Bindings of distinct labels give each its own value. -/
theorem within_value? : {bs : Bindings} → (bs.map Binding.label).Nodup → bs.Within bs.value?
  | [], _, _, hb => absurd hb List.not_mem_nil
  | b :: bs, h, c, hc => by
    obtain ⟨hb, h⟩ := List.nodup_cons.mp h
    rw [value?_cons]
    rcases List.mem_cons.mp hc with rfl | hc
    · exact if_pos rfl
    · rw [if_neg fun e : b.label = c.label => hb (e ▸ List.mem_map_of_mem hc)]
      exact within_value? h c hc

/-- What is bound, is bound for good: under any assignment that has the bindings, the placeholder
of a binding holds at its value. This is not known yet of the placeholders that are still being
matched. -/
structure Settled (g : Graph) (ts : List Term) (pending : List Nat) (bs : Bindings) : Prop where
  nodup : (bs.map Binding.label).Nodup
  holds : ∀ b ∈ bs, b.label ∉ pending → ∀ t ∈ ts, t.label = b.label →
    ∀ σ, bs.Within σ → ∃ used, t.Holds g σ b.value used

end Bindings

/-! ### Soundness -/

namespace Term

variable {pending : List Nat}

theorem produces_of_operands? (e : g.operands? kinds inputs.length guard v = some vs) :
    ∃ n, g.Produces kinds inputs guard v n ∧ n.inputs = vs := by
  obtain ⟨n, hn, hkind, hport, harity, htest, hvs⟩ := Graph.operands?_eq_some_iff.mp e
  exact ⟨n, ⟨hn, hkind, hport, harity.imp_left List.length_eq_zero_iff.mp, htest⟩, hvs⟩

theorem operands?_of_produces (h : g.Produces kinds inputs guard v n) :
    g.operands? kinds inputs.length guard v = some n.inputs :=
  Graph.operands?_eq_some_iff.mpr ⟨n, h.node, h.kind, h.port,
    h.arity.imp_left List.length_eq_zero_iff.mpr, h.guarded, rfl⟩

theorem Scope.parts_lt (hts : Scope ts) (ht : t ∈ ts) (hp : ∀ l ∈ pending, t.label < l) :
    ∀ u ∈ t.parts, ∀ l ∈ t.label :: pending, u.label < l := fun u hu =>
  have hlt := (hts.parts t ht u hu).2
  List.forall_mem_cons.mpr ⟨hlt, fun l hl => Nat.lt_trans hlt (hp l hl)⟩

/-- What a successful match adds to settled bindings. -/
structure Extends (g : Graph) (ts : List Term) (pending : List Nat) (bs bs' : Bindings)
    (P : (Nat → Option Value) → List Nat → Prop) : Prop where
  suffix : bs <:+ bs'
  settled : bs'.Settled g ts pending
  /-- Every new binding is used. -/
  justified : ∀ σ, bs'.Within σ → ∃ used, P σ used ∧ ∀ b ∈ bs', b ∈ bs ∨ b.label ∈ used

theorem extends_bound (hbs : bs.Settled g ts pending) (ht : t ∈ ts)
    (hp : t.label ∉ pending) {w : Value} (hw : bs.value? t.label = some w)
    (e : (w == v, bs) = (true, bs')) : Extends g ts pending bs bs' fun σ => t.Holds g σ v := by
  obtain ⟨hv, rfl⟩ := Prod.mk.inj e
  obtain ⟨b, hb, hlabel, rfl⟩ := Bindings.exists_mem_of_value? hw
  obtain rfl := eq_of_beq hv
  refine ⟨List.suffix_refl _, hbs, fun σ hσ => ?_⟩
  obtain ⟨used, h⟩ := hbs.holds b hb (hlabel ▸ hp) t ht hlabel.symm σ hσ
  exact ⟨used, h, fun _ => .inl⟩

theorem settled_cons (hbs : bs.Settled g ts pending) (hl : bs.value? label = none)
    (isOperation : Bool) :
    Bindings.Settled g ts (label :: pending) (⟨label, v, isOperation⟩ :: bs) := by
  refine ⟨List.nodup_cons.mpr ⟨Bindings.value?_eq_none hl, hbs.nodup⟩, ?_⟩
  intro b hb hp u hu e σ hσ
  rw [List.mem_cons, not_or] at hp
  obtain ⟨hne, hp⟩ := hp
  rcases List.mem_cons.mp hb with rfl | hb
  · exact absurd rfl hne
  · exact hbs.holds b hb hp u hu e σ (hσ.of_suffix (List.suffix_cons ..))

theorem Extends.close (hts : Scope ts) (ht : t ∈ ts) {isOperation : Bool}
    {P : (Nat → Option Value) → List Nat → Prop}
    (h : Extends g ts (t.label :: pending) (⟨t.label, v, isOperation⟩ :: bs) bs' P)
    (hP : ∀ {σ used}, σ t.label = some v → P σ used → t.Holds g σ v (t.label :: used)) :
    Extends g ts pending bs bs' fun σ => t.Holds g σ v := by
  have hmem : (⟨t.label, v, isOperation⟩ : Binding) ∈ bs' := h.suffix.subset List.mem_cons_self
  refine ⟨(List.suffix_cons ..).trans h.suffix, ⟨h.settled.nodup, fun b hb hp u hu e σ hσ => ?_⟩,
    fun σ hσ => ?_⟩
  · by_cases hlabel : b.label = t.label
    · obtain rfl := hts.unique u hu t ht (e.trans hlabel)
      obtain rfl := List.inj_on_of_nodup_map h.settled.nodup hb hmem hlabel
      obtain ⟨used, hused, -⟩ := h.justified σ hσ
      exact ⟨_, hP (hσ _ hmem) hused⟩
    · exact h.settled.holds b hb (List.not_mem_cons_of_ne_of_not_mem hlabel hp) u hu e σ hσ
  · obtain ⟨used, hused, hall⟩ := h.justified σ hσ
    refine ⟨_, hP (hσ _ hmem) hused, fun b hb => ?_⟩
    rcases hall b hb with hb | hb
    · rcases List.mem_cons.mp hb with rfl | hb
      · exact .inr List.mem_cons_self
      · exact .inl hb
    · exact .inr (List.mem_cons_of_mem _ hb)

theorem Extends.imp {P Q : (Nat → Option Value) → List Nat → Prop}
    (h : Extends g ts pending bs bs' P) (hPQ : ∀ {σ used}, P σ used → Q σ used) :
    Extends g ts pending bs bs' Q :=
  ⟨h.suffix, h.settled, fun σ hσ =>
    (h.justified σ hσ).imp fun _ => And.imp_left hPQ⟩

mutual
theorem extends_matchValue (hts : Scope ts) : ∀ (t : Term) (v : Value) (pending : List Nat)
    (bs bs' : Bindings), t ∈ ts → (∀ l ∈ pending, t.label < l) → bs.Settled g ts pending →
    t.matchValue g v bs = (true, bs') → Extends g ts pending bs bs' fun σ => t.Holds g σ v
  | .input label guard, v, pending, bs, bs', ht, hp, hbs, e => by
    cases hl : bs.value? label with
    | some w =>
      unfold matchValue at e
      rw [hl] at e
      exact extends_bound hbs ht (fun h => Nat.lt_irrefl _ (hp _ h)) hl e
    | none =>
      obtain ⟨houtput, htest, rfl⟩ := matchValue_input hl e
      refine Extends.close (P := fun _ used => used = []) hts ht
        ⟨List.suffix_refl _, settled_cons hbs hl false, fun σ _ => ⟨[], rfl, fun _ => .inl⟩⟩ ?_
      rintro σ _ hσ rfl
      exact .input hσ houtput htest
  | .wrap label kinds inputs guard, v, pending, bs, bs', ht, hp, hbs, e => by
    unfold matchValue at e
    split at e
    · rename_i w hl
      exact extends_bound hbs ht (fun h => Nat.lt_irrefl _ (hp _ h)) hl e
    · rename_i hl
      split at e
      · rename_i operands hv
        obtain ⟨n, hn, rfl⟩ := produces_of_operands? hv
        exact Extends.close hts ht
          (extends_matchInputs hts inputs n.inputs (label :: pending) _ bs' hn.arity
            (fun u hu => (hts.parts _ ht u hu).1) (hts.parts_lt ht hp)
            (settled_cons hbs hl true) e)
          fun hσ hall => .wrap hσ hn hall
      · cases (Prod.mk.inj e).1
  | .optional label kinds inputs guard, v, pending, bs, bs', ht, hp, hbs, e => by
    have hmem : inputs ⊆ ts := fun u hu => (hts.parts _ ht u hu).1
    have hlt := hts.parts_lt ht hp
    -- the placeholder is left out
    have hskip : matchHead g inputs v bs = (true, bs') → Extends g ts pending bs bs'
        fun σ => (Term.optional label kinds inputs guard).Holds g σ v := by
      intro e
      obtain ⟨t, us, rfl, h⟩ := extends_matchHead hts inputs v pending bs bs'
        hmem (fun u hu l hl => hlt u hu l (List.mem_cons_of_mem _ hl)) hbs e
      exact h.imp .skip
    unfold matchValue at e
    split at e
    · rename_i w hl
      exact extends_bound hbs ht (fun h => Nat.lt_irrefl _ (hp _ h)) hl e
    · rename_i hl
      split at e
      · rename_i operands hv
        obtain ⟨n, hn, rfl⟩ := produces_of_operands? hv
        split at e
        · rename_i bound hbound
          obtain rfl := (Prod.mk.inj e).2
          exact Extends.close hts ht
            (extends_matchInputs hts inputs n.inputs (label :: pending) _ bound hn.arity
              hmem hlt (settled_cons hbs hl true) hbound)
            fun hσ hall => .optional hσ hn hall
        · exact hskip e
      · exact hskip e
  | .oneOf label branches, v, pending, bs, bs', ht, hp, hbs, e => by
    unfold matchValue at e
    obtain ⟨t, hmem, h⟩ := extends_matchBranches hts branches v pending bs bs'
      (fun u hu => (hts.parts _ ht u hu).1)
      (fun u hu l hl => hts.parts_lt ht hp u hu l (List.mem_cons_of_mem _ hl)) hbs e
    exact h.imp (.oneOf hmem)

theorem extends_matchInputs (hts : Scope ts) : ∀ (us : List Term) (vs : List Value)
    (pending : List Nat) (bs bs' : Bindings), us = [] ∨ vs.length = us.length →
    us ⊆ ts → (∀ u ∈ us, ∀ l ∈ pending, u.label < l) → bs.Settled g ts pending →
    matchInputs g us vs bs = (true, bs') → Extends g ts pending bs bs' fun σ => HoldAll g σ us vs
  | [], vs, pending, bs, bs', _, _, _, hbs, e => by
    obtain rfl := matchInputs_nil e
    exact ⟨List.suffix_refl _, hbs, fun σ _ => ⟨[], .nil, fun _ => .inl⟩⟩
  | u :: us, [], pending, bs, bs', hlen, _, _, _, _ => by
    cases hlen.resolve_left (List.cons_ne_nil _ _)
  | u :: us, v :: vs, pending, bs, bs', hlen, hus, hp, hbs, e => by
    have hlen := hlen.resolve_left (List.cons_ne_nil _ _)
    obtain ⟨bound, hu, e⟩ := matchInputs_cons e
    have head := extends_matchValue hts u v pending bs bound (hus List.mem_cons_self)
      (hp u List.mem_cons_self) hbs hu
    have tail := extends_matchInputs hts us vs pending bound bs' (.inr (Nat.succ.inj hlen))
      (fun _ hw => hus (List.mem_cons_of_mem _ hw))
      (fun w hw => hp w (List.mem_cons_of_mem _ hw)) head.settled e
    refine ⟨head.suffix.trans tail.suffix, tail.settled, fun σ hσ => ?_⟩
    obtain ⟨used, hused, hhead⟩ := head.justified σ (hσ.of_suffix tail.suffix)
    obtain ⟨used', hused', htail⟩ := tail.justified σ hσ
    refine ⟨used ++ used', .cons hused hused', fun b hb => ?_⟩
    rw [List.mem_append]
    rcases htail b hb with hb | hb
    · exact (hhead b hb).imp_right .inl
    · exact .inr (.inr hb)

theorem extends_matchHead (hts : Scope ts) : ∀ (us : List Term) (v : Value) (pending : List Nat)
    (bs bs' : Bindings), us ⊆ ts → (∀ u ∈ us, ∀ l ∈ pending, u.label < l) →
    bs.Settled g ts pending → matchHead g us v bs = (true, bs') →
    ∃ t us', us = t :: us' ∧ Extends g ts pending bs bs' fun σ => t.Holds g σ v
  | [], v, pending, bs, bs', _, _, _, e => by
    unfold matchHead at e
    cases (Prod.mk.inj e).1
  | u :: us, v, pending, bs, bs', hus, hp, hbs, e => by
    unfold matchHead at e
    exact ⟨u, us, rfl, extends_matchValue hts u v pending bs bs' (hus List.mem_cons_self)
      (hp u List.mem_cons_self) hbs e⟩

theorem extends_matchBranches (hts : Scope ts) : ∀ (us : List Term) (v : Value)
    (pending : List Nat) (bs bs' : Bindings), us ⊆ ts →
    (∀ u ∈ us, ∀ l ∈ pending, u.label < l) → bs.Settled g ts pending →
    matchBranches g us v bs = (true, bs') →
    ∃ t ∈ us, Extends g ts pending bs bs' fun σ => t.Holds g σ v
  | [], v, pending, bs, bs', _, _, _, e => by
    unfold matchBranches at e
    cases (Prod.mk.inj e).1
  | u :: us, v, pending, bs, bs', hus, hp, hbs, e => by
    unfold matchBranches at e
    split at e
    · rename_i bound hbound
      obtain rfl := (Prod.mk.inj e).2
      exact ⟨u, List.mem_cons_self, extends_matchValue hts u v pending bs bound
        (hus List.mem_cons_self) (hp u List.mem_cons_self) hbs hbound⟩
    · obtain ⟨t, hmem, h⟩ := extends_matchBranches hts us v pending bs bs'
        (fun _ hw => hus (List.mem_cons_of_mem _ hw))
        (fun w hw => hp w (List.mem_cons_of_mem _ hw)) hbs e
      exact ⟨t, List.mem_cons_of_mem _ hmem, h⟩
end

/-! ### Completeness -/

mutual
def Plain : Term → Prop
  | input _ _ => True
  | wrap _ _ inputs _ => PlainAll inputs
  | optional _ _ _ _ | oneOf _ _ => False

def PlainAll : List Term → Prop
  | [] => True
  | t :: ts => t.Plain ∧ PlainAll ts
end

mutual
def labels : Term → List Nat
  | input label _ => [label]
  | wrap label _ inputs _ | optional label _ inputs _ => label :: labelsAll inputs
  | oneOf _ branches => labelsAll branches

def labelsAll : List Term → List Nat
  | [] => []
  | t :: ts => t.labels ++ labelsAll ts
end

mutual
theorem Holds.used_eq : ∀ {t : Term} {v : Value} {used : List Nat}, t.Plain →
    t.Holds g σ v used → used = t.labels
  | .input _ _, _, _, _, .input _ _ _ => rfl
  | .wrap label _ _ _, _, _, ht, .wrap _ _ operands => congrArg (label :: ·) (operands.used_eq ht)

theorem HoldAll.used_eq : ∀ {ts : List Term} {vs : List Value} {used : List Nat}, PlainAll ts →
    HoldAll g σ ts vs used → used = labelsAll ts
  | [], _, _, _, .nil => rfl
  | _ :: _, _, _, hts, .cons head tail =>
    congrArg₂ (· ++ ·) (head.used_eq hts.1) (tail.used_eq hts.2)
end

mutual
theorem Holds.bound_of_mem : ∀ {t : Term} {v : Value} {used : List Nat},
    t.Holds g σ v used → ∀ l ∈ used, ∃ w, σ l = some w
  | _, v, _, .input bound _ _, l, hl => ⟨v, List.mem_singleton.mp hl ▸ bound⟩
  | _, v, _, .wrap bound _ operands, l, hl | _, v, _, .optional bound _ operands, l, hl => by
    rcases List.mem_cons.mp hl with rfl | hl
    · exact ⟨v, bound⟩
    · exact operands.bound_of_mem l hl
  | _, _, _, .skip first, l, hl => first.bound_of_mem l hl
  | _, _, _, .oneOf _ branch, l, hl => branch.bound_of_mem l hl

theorem HoldAll.bound_of_mem : ∀ {ts : List Term} {vs : List Value} {used : List Nat},
    HoldAll g σ ts vs used → ∀ l ∈ used, ∃ w, σ l = some w
  | _, _, _, .nil, _, hl => absurd hl List.not_mem_nil
  | _, _, _, .cons head tail, l, hl => by
    rcases List.mem_append.mp hl with hl | hl
    · exact head.bound_of_mem l hl
    · exact tail.bound_of_mem l hl
end

mutual
theorem exists_matchValue : ∀ (t : Term) (v : Value) (used : List Nat) (bs : Bindings), t.Plain →
    t.Holds g σ v used → bs.Within σ → ∃ bs', t.matchValue g v bs = (true, bs') ∧ bs'.Within σ
  | .input label guard, v, _, bs, _, .input bound output guarded, hbs => by
    unfold matchValue
    split
    · rename_i w hw
      exact ⟨bs, by rw [hbs.beq_of_value? hw bound], hbs⟩
    · rw [if_pos (Bool.and_eq_true_iff.mpr ⟨output, guarded⟩)]
      exact ⟨_, rfl, hbs.cons bound⟩
  | .wrap label kinds inputs guard, v, _, bs, ht, .wrap bound produces operands, hbs => by
    unfold matchValue
    split
    · rename_i w hw
      exact ⟨bs, by rw [hbs.beq_of_value? hw bound], hbs⟩
    · rw [operands?_of_produces produces]
      exact exists_matchInputs inputs _ _ _ ht operands (hbs.cons bound)

theorem exists_matchInputs : ∀ (ts : List Term) (vs : List Value) (used : List Nat)
    (bs : Bindings), PlainAll ts → HoldAll g σ ts vs used → bs.Within σ →
    ∃ bs', matchInputs g ts vs bs = (true, bs') ∧ bs'.Within σ
  | [], _, _, bs, _, .nil, hbs => by
    unfold matchInputs
    exact ⟨bs, rfl, hbs⟩
  | t :: ts, v :: vs, _, bs, hts, .cons head tail, hbs => by
    obtain ⟨bound, e, hbound⟩ := exists_matchValue t v _ bs hts.1 head hbs
    unfold matchInputs
    rw [e]
    exact exists_matchInputs ts vs _ bound hts.2 tail hbound
end

end Term

/-! ### Matches of a pattern -/

namespace Pattern

variable {p : Pattern} {m : Match}

/-- The bindings of a match are of distinct placeholders, the root holds under them, and each is
used for that. -/
theorem holds_of_matchOutput (hp : p.Built) (e : p.matchOutput g v = some m) :
    (m.bindings.map Binding.label).Nodup ∧ ∃ used, p.root.Holds g m.value? v used ∧
      ∀ b ∈ m.bindings, b.label ∈ used := by
  obtain ⟨ts, made, hroot, -⟩ := hp
  unfold matchOutput at e
  split at e
  · rename_i bs hbs
    obtain rfl := Option.some.inj e
    have h := Term.extends_matchValue made.scope p.root v [] [] bs hroot
      (fun _ hl => absurd hl List.not_mem_nil) ⟨.nil, fun _ hb => absurd hb List.not_mem_nil⟩ hbs
    have hnodup : (bs.reverse.map Binding.label).Nodup := by
      rw [List.map_reverse]
      exact List.nodup_reverse.mpr h.settled.nodup
    have hwithin : bs.Within (Match.value? ⟨v, bs.reverse⟩) := fun b hb =>
      Bindings.within_value? hnodup b (List.mem_reverse.mpr hb)
    obtain ⟨used, hused, hall⟩ := h.justified _ hwithin
    exact ⟨hnodup, used, hused, fun b hb =>
      (hall b (List.mem_reverse.mp hb)).resolve_left List.not_mem_nil⟩
  · cases e

theorem exists_matchOutput (hp : p.Built) (hplain : p.root.Plain)
    (h : p.root.Holds g σ v used) : ∃ m, p.matchOutput g v = some m ∧
      ∀ l, m.value? l = if l ∈ p.root.labels then σ l else none := by
  obtain ⟨bs, e, hbs⟩ := Term.exists_matchValue p.root v used [] hplain h
    fun _ hb => absurd hb List.not_mem_nil
  have hm : p.matchOutput g v = some ⟨v, bs.reverse⟩ := by
    unfold matchOutput
    rw [e]
  obtain ⟨-, used', hused, hall⟩ := holds_of_matchOutput hp hm
  obtain rfl := hused.used_eq hplain
  refine ⟨_, hm, fun l => ?_⟩
  split
  · rename_i hl
    obtain ⟨w, hw⟩ := hused.bound_of_mem l hl
    obtain ⟨b, hb, rfl, rfl⟩ := Bindings.exists_mem_of_value? hw
    rw [hw, hbs b (List.mem_reverse.mp hb)]
  · rename_i hl
    rw [Option.eq_none_iff_forall_not_mem]
    intro w hw
    obtain ⟨b, hb, rfl, -⟩ := Bindings.exists_mem_of_value? hw
    exact hl (hall b hb)

/-- Matching is sound, and complete for patterns without optional placeholders and choices. -/
theorem matchOutput_correct (hp : p.Built) (g : Graph) (v : Value) :
    (∀ m, p.matchOutput g v = some m → (m.bindings.map Binding.label).Nodup ∧
      ∃ used, p.root.Holds g m.value? v used ∧ ∀ b ∈ m.bindings, b.label ∈ used) ∧
    (p.root.Plain → ∀ σ used, p.root.Holds g σ v used → ∃ m, p.matchOutput g v = some m ∧
      ∀ l, m.value? l = if l ∈ p.root.labels then σ l else none) :=
  ⟨fun _ => holds_of_matchOutput hp, fun hplain _ _ => exists_matchOutput hp hplain⟩

/-- The sum of a value and what may be its conversion. -/
def residual : Pattern := Builder.finish do
  let source ← Builder.anyInput
  let converted ← Builder.optional [.convert] [source] .always
  Builder.wrap [.add] [converted, source] .always

theorem residual_eq : residual = ⟨.wrap 2 [.add]
    [.optional 1 [.convert] [.input 0 .always] .always, .input 0 .always] .always, 3⟩ := rfl

theorem built_residual : residual.Built :=
  have source := Builder.Made.input .always .start
  have converted := source.optional [.convert] .always (List.Subset.refl _)
  ⟨_, converted.wrap [.add] .always (List.Subset.refl _), List.mem_cons_self, rfl⟩

def doubled : Graph where
  slots := #[
    ⟨0, 0, some ⟨Primitive.parameter ⟨.f32, .ofSizes [2]⟩, [],
      [⟨⟨.f32, .ofSizes [2]⟩, [⟨⟨1, 0⟩, 0⟩, ⟨⟨1, 0⟩, 1⟩]⟩], "", .empty⟩⟩,
    ⟨0, 0, some ⟨Primitive.add, [⟨⟨0, 0⟩, 0⟩, ⟨⟨0, 0⟩, 0⟩],
      [⟨⟨.f32, .ofSizes [2]⟩, []⟩], "", .empty⟩⟩]
  free := []
  parameters := [⟨0, 0⟩]
  results := []
  live := 2
  version := 0
  table := .standard

/-- The conversion is left out, its placeholder stays unbound, and the other two are used. -/
theorem matchOutput_doubled : residual.Built ∧
    ∃ m, residual.matchOutput doubled ⟨⟨1, 0⟩, 0⟩ = some m ∧ m.value? 1 = none ∧
      ∃ used, residual.root.Holds doubled m.value? ⟨⟨1, 0⟩, 0⟩ used ∧ 0 ∈ used ∧ 2 ∈ used := by
  have hm : residual.matchOutput doubled ⟨⟨1, 0⟩, 0⟩ =
      some ⟨⟨⟨1, 0⟩, 0⟩, [⟨2, ⟨⟨1, 0⟩, 0⟩, true⟩, ⟨0, ⟨⟨0, 0⟩, 0⟩, false⟩]⟩ := by
    rw [residual_eq]
    cbv
  obtain ⟨-, used, hused, hall⟩ := (matchOutput_correct built_residual doubled _).1 _ hm
  exact ⟨built_residual, _, hm, rfl, used, hused, hall ⟨0, ⟨⟨0, 0⟩, 0⟩, false⟩ (by simp),
    hall ⟨2, ⟨⟨1, 0⟩, 0⟩, true⟩ (by simp)⟩

end Pattern

end TensorGraph
