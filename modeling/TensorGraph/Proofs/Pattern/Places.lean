import TensorGraph.Proofs.Pattern.Soundness

/-! # Places of a match

A match reaches a placeholder wherever a term that it takes has it as an input or as a branch. At an
optional placeholder that is left out, and at a choice, another placeholder stands in at the same
value. A placeholder for which none stands in is reached with one value only: it is bound to it for
good. One for which others stand in is never bound there, and may be reached with different values.
-/

namespace TensorGraph

/-- A term that a match reaches, the value it reaches it with, and the label of the placeholder that
is bound to the value there. -/
structure Place where
  term : Term
  value : Value
  bound : Nat

variable {g : Graph} {v : Value} {vs : List Value} {bs bs' bs'' : Bindings} {label : Nat}
variable {t u : Term} {ts : List Term} {ps qs : List Place} {D : Term → Prop}

/-- Another placeholder may stand in for this one. -/
def Term.isChoice : Term → Bool
  | input _ _ | wrap _ _ _ _ => false
  | optional _ _ _ _ | oneOf _ _ => true

namespace Term

/-- The term that is reached first stands in for this one. -/
def standIn (t : Term) : List Place → List Place
  | [] => []
  | s :: places => ⟨t, s.value, s.bound⟩ :: s :: places

mutual
/-- The places of a successful match of the term, the term itself first. What is reached for an
alternative that is given up does not count. -/
def places (g : Graph) : Term → Value → Bindings → List Place
  | input label guard, v, _ => [⟨input label guard, v, label⟩]
  | wrap label kinds inputs guard, v, bs =>
    ⟨wrap label kinds inputs guard, v, label⟩ ::
      match bs.value? label with
      | some _ => []
      | none =>
        match g.operands? kinds inputs.length guard v with
        | some operands => placesInputs g inputs operands (⟨label, v, true⟩ :: bs)
        | none => []
  | optional label kinds inputs guard, v, bs =>
    match bs.value? label with
    | some _ => [⟨optional label kinds inputs guard, v, label⟩]
    | none =>
      match g.operands? kinds inputs.length guard v with
      | some operands =>
        match matchInputs g inputs operands (⟨label, v, true⟩ :: bs) with
        | (true, _) => ⟨optional label kinds inputs guard, v, label⟩ ::
            placesInputs g inputs operands (⟨label, v, true⟩ :: bs)
        | (false, _) => standIn (optional label kinds inputs guard) (placesHead g inputs v bs)
      | none => standIn (optional label kinds inputs guard) (placesHead g inputs v bs)
  | oneOf label branches, v, bs => standIn (oneOf label branches) (placesBranches g branches v bs)

def placesInputs (g : Graph) : List Term → List Value → Bindings → List Place
  | t :: ts, v :: vs, bs => t.places g v bs ++ placesInputs g ts vs (t.matchValue g v bs).2
  | _, _, _ => []

def placesHead (g : Graph) : List Term → Value → Bindings → List Place
  | [], _, _ => []
  | t :: _, v, bs => t.places g v bs

def placesBranches (g : Graph) : List Term → Value → Bindings → List Place
  | [], _, _ => []
  | t :: ts, v, bs =>
    match t.matchValue g v bs with
    | (true, _) => t.places g v bs
    | (false, _) => placesBranches g ts v bs
end

/-! ### What a match reaches -/

end Term

/-- The placeholder is bound here, or a part of it stands in for it at the same value. -/
def Place.Resolved (ps : List Place) (s : Place) : Prop :=
  s.bound = s.term.label ∨
    s.term.isChoice = true ∧ ∃ u ∈ s.term.parts, ⟨u, s.value, s.bound⟩ ∈ ps

def Place.Cover (ps : List Place) (ts : List Term) (vs : List Value) : Prop :=
  ∀ x ∈ ts.zip vs, ∃ bound, ⟨x.1, x.2, bound⟩ ∈ ps

/-- The binding is made at one of the places, and if it is of an operation, then its inputs are
reached with the inputs of the producer. -/
def Binding.Reached (g : Graph) (ps : List Place) (b : Binding) : Prop :=
  ∃ s ∈ ps, s.term.label = b.label ∧ s.bound = b.label ∧ s.value = b.value ∧
    ∀ n, g.node? s.value.node = some n → Place.Cover ps s.term.parts n.inputs

theorem Place.Resolved.mono {s : Place} (h : s.Resolved ps) (hsub : ps ⊆ qs) : s.Resolved qs :=
  h.imp_right (And.imp_right fun ⟨u, hu, hplace⟩ => ⟨u, hu, hsub hplace⟩)

theorem Place.Cover.mono (h : Place.Cover ps ts vs) (hsub : ps ⊆ qs) : Place.Cover qs ts vs :=
  fun x hx => (h x hx).imp fun _ => (hsub ·)

theorem Binding.Reached.mono {b : Binding} (h : b.Reached g ps) (hsub : ps ⊆ qs) :
    b.Reached g qs := by
  obtain ⟨s, hs, hlabel, hbound, hvalue, hcover⟩ := h
  exact ⟨s, hsub hs, hlabel, hbound, hvalue, fun n hn => (hcover n hn).mono hsub⟩

namespace Term

/-- A match that reaches these places, of terms with the property, turns the one bindings into the
others. -/
structure Reaches (g : Graph) (D : Term → Prop) (bs bs' : Bindings) (ps : List Place) : Prop where
  terms : ∀ s ∈ ps, D s.term
  suffix : bs <:+ bs'
  bound : ∀ s ∈ ps, ∃ b ∈ bs', b.label = s.bound ∧ b.value = s.value
  resolved : ∀ s ∈ ps, s.Resolved ps
  reached : ∀ b ∈ bs', b ∈ bs ∨ b.Reached g ps

/-- The first of the places is the one of the term at the value. -/
def Begins (g : Graph) (D : Term → Prop) (t : Term) (v : Value) (bs bs' : Bindings)
    (ps : List Place) : Prop :=
  Reaches g D bs bs' ps ∧ ∃ bound rest, ps = ⟨t, v, bound⟩ :: rest

theorem Reaches.refl (g : Graph) (D : Term → Prop) (bs : Bindings) : Reaches g D bs bs [] :=
  ⟨nofun, List.suffix_refl _, nofun, nofun, fun _ => .inl⟩

theorem begins_bound (ht : D t) (h : bs.value? t.label = some v) :
    Begins g D t v bs bs [⟨t, v, t.label⟩] := by
  obtain ⟨b, hb, hlabel, hvalue⟩ := Bindings.exists_mem_of_value? h
  refine ⟨⟨?_, List.suffix_refl _, ?_, ?_, fun _ => .inl⟩, _, _, rfl⟩
  · exact List.forall_mem_singleton.mpr ht
  · exact List.forall_mem_singleton.mpr ⟨b, hb, hlabel, hvalue⟩
  · exact List.forall_mem_singleton.mpr (.inl rfl)

/-- A placeholder that gets bound here. -/
theorem Reaches.bind {isOperation : Bool} (ht : D t)
    (h : Reaches g D (⟨t.label, v, isOperation⟩ :: bs) bs' ps)
    (hcover : ∀ n, g.node? v.node = some n → Place.Cover ps t.parts n.inputs) :
    Begins g D t v bs bs' (⟨t, v, t.label⟩ :: ps) := by
  have hmem := h.suffix.subset List.mem_cons_self
  have hsub : ps ⊆ ⟨t, v, t.label⟩ :: ps := List.subset_cons_self _ _
  refine ⟨⟨?_, (List.suffix_cons ..).trans h.suffix, ?_, ?_, fun b hb => ?_⟩, _, _, rfl⟩
  · exact List.forall_mem_cons.mpr ⟨ht, h.terms⟩
  · exact List.forall_mem_cons.mpr ⟨⟨_, hmem, rfl, rfl⟩, h.bound⟩
  · exact List.forall_mem_cons.mpr ⟨.inl rfl, fun s hs => (h.resolved s hs).mono hsub⟩
  · rcases h.reached b hb with hold | hnew
    · rcases List.mem_cons.mp hold with rfl | hold
      · exact .inr ⟨_, List.mem_cons_self, rfl, rfl, rfl, fun n hn => (hcover n hn).mono hsub⟩
      · exact .inl hold
    · exact .inr (hnew.mono hsub)

theorem Begins.standIn (ht : D t) (h : Begins g D u v bs bs' ps) (hu : u ∈ t.parts)
    (hchoice : t.isChoice = true) : Begins g D t v bs bs' (t.standIn ps) := by
  obtain ⟨h, bound, rest, rfl⟩ := h
  have hsub := List.subset_cons_self (⟨t, v, bound⟩ : Place) (⟨u, v, bound⟩ :: rest)
  have hplace : (⟨u, v, bound⟩ : Place) ∈ ⟨t, v, bound⟩ :: ⟨u, v, bound⟩ :: rest :=
    hsub List.mem_cons_self
  refine ⟨⟨?_, h.suffix, ?_, ?_, fun b hb => (h.reached b hb).imp_right (·.mono hsub)⟩, _, _, rfl⟩
  · exact List.forall_mem_cons.mpr ⟨ht, h.terms⟩
  · exact List.forall_mem_cons.mpr ⟨h.bound ⟨u, v, bound⟩ List.mem_cons_self, h.bound⟩
  · exact List.forall_mem_cons.mpr
      ⟨.inr ⟨hchoice, u, hu, hplace⟩, fun s hs => (h.resolved s hs).mono hsub⟩

theorem Reaches.append (h : Reaches g D bs bs' ps) (h' : Reaches g D bs' bs'' qs) :
    Reaches g D bs bs'' (ps ++ qs) := by
  have hleft := List.subset_append_left ps qs
  have hright := List.subset_append_right ps qs
  refine ⟨List.forall_mem_append.mpr ⟨h.terms, h'.terms⟩, h.suffix.trans h'.suffix, ?_, ?_,
    fun b hb => ?_⟩
  · refine List.forall_mem_append.mpr ⟨fun s hs => ?_, h'.bound⟩
    exact (h.bound s hs).imp fun _ => And.imp_left (h'.suffix.subset ·)
  · exact List.forall_mem_append.mpr
      ⟨fun s hs => (h.resolved s hs).mono hleft, fun s hs => (h'.resolved s hs).mono hright⟩
  · rcases h'.reached b hb with hb | hnew
    · exact (h.reached b hb).imp_right (·.mono hleft)
    · exact .inr (hnew.mono hright)

theorem cover_nil : Place.Cover ps [] vs := fun _ hx => absurd hx List.not_mem_nil

theorem eq_of_bound {w : Value} (hl : bs.value? label = some w)
    (e : (w == v, bs) = (true, bs')) : bs.value? label = some v ∧ bs' = bs := by
  obtain ⟨hv, rfl⟩ := Prod.mk.inj e
  exact ⟨hl.trans (congrArg some (eq_of_beq hv)), rfl⟩

theorem inputs_of_operands? {kinds : List Kind} {arity : Nat} {guard : Guard} {n : Node Body}
    (e : g.operands? kinds arity guard v = some vs) (hn : g.node? v.node = some n) :
    n.inputs = vs := by
  obtain ⟨m, hm, -, -, -, -, hvs⟩ := Graph.operands?_eq_some_iff.mp e
  obtain rfl := Option.some.inj (hn.symm.trans hm)
  exact hvs

def Hereditary (D : Term → Prop) : Prop := ∀ t, D t → ∀ u ∈ t.parts, D u

mutual
theorem begins_matchValue (hD : Hereditary D) : ∀ (t : Term) (v : Value) (bs bs' : Bindings),
    D t → t.matchValue g v bs = (true, bs') → Begins g D t v bs bs' (t.places g v bs)
  | .input label guard, v, bs, bs', ht, e => by
    unfold places
    cases hl : bs.value? label with
    | some w =>
      unfold matchValue at e
      rw [hl] at e
      obtain ⟨hv, rfl⟩ := eq_of_bound hl e
      exact begins_bound ht hv
    | none =>
      obtain ⟨-, -, rfl⟩ := matchValue_input hl e
      exact (Reaches.refl g D _).bind ht fun _ _ => cover_nil
  | .wrap label kinds inputs guard, v, bs, bs', ht, e => by
    unfold matchValue at e
    unfold places
    cases hl : bs.value? label with
    | some w =>
      rw [hl] at e
      obtain ⟨hv, rfl⟩ := eq_of_bound hl e
      exact begins_bound ht hv
    | none =>
      rw [hl] at e
      cases ho : g.operands? kinds inputs.length guard v with
      | some operands =>
        rw [ho] at e
        obtain ⟨h, hcover⟩ := reaches_matchInputs hD inputs operands _ bs' (hD _ ht) e
        exact h.bind ht fun n hn => inputs_of_operands? ho hn ▸ hcover
      | none =>
        rw [ho] at e
        cases (Prod.mk.inj e).1
  | .optional label kinds inputs guard, v, bs, bs', ht, e => by
    have hskip (e : matchHead g inputs v bs = (true, bs')) :
        Begins g D (optional label kinds inputs guard) v bs bs'
          (standIn (optional label kinds inputs guard) (placesHead g inputs v bs)) := by
      obtain ⟨u, hu, h⟩ := begins_matchHead hD inputs v bs bs' (hD _ ht) e
      exact h.standIn ht hu rfl
    unfold matchValue at e
    unfold places
    cases hl : bs.value? label with
    | some w =>
      rw [hl] at e
      obtain ⟨hv, rfl⟩ := eq_of_bound hl e
      exact begins_bound ht hv
    | none =>
      rw [hl] at e
      cases ho : g.operands? kinds inputs.length guard v with
      | some operands =>
        rw [ho] at e
        dsimp only at e ⊢
        rcases hm : matchInputs g inputs operands (⟨label, v, true⟩ :: bs) with ⟨_ | _, bound⟩
        · rw [hm] at e
          exact hskip e
        · rw [hm] at e
          obtain rfl := (Prod.mk.inj e).2
          obtain ⟨h, hcover⟩ := reaches_matchInputs hD inputs operands _ bound (hD _ ht) hm
          exact h.bind ht fun n hn => inputs_of_operands? ho hn ▸ hcover
      | none =>
        rw [ho] at e
        exact hskip e
  | .oneOf label branches, v, bs, bs', ht, e => by
    unfold matchValue at e
    unfold places
    obtain ⟨u, hu, h⟩ := begins_matchBranches hD branches v bs bs' (hD _ ht) e
    exact h.standIn ht hu rfl

theorem reaches_matchInputs (hD : Hereditary D) : ∀ (ts : List Term) (vs : List Value)
    (bs bs' : Bindings), (∀ t ∈ ts, D t) → matchInputs g ts vs bs = (true, bs') →
    Reaches g D bs bs' (placesInputs g ts vs bs) ∧ Place.Cover (placesInputs g ts vs bs) ts vs
  | [], vs, bs, bs', _, e => by
    obtain rfl := matchInputs_nil e
    unfold placesInputs
    exact ⟨.refl g D _, cover_nil⟩
  | t :: ts, [], bs, bs', _, e => by
    unfold matchInputs at e
    obtain rfl := (Prod.mk.inj e).2
    unfold placesInputs
    exact ⟨.refl g D _, fun _ hx => absurd hx List.not_mem_nil⟩
  | t :: ts, v :: vs, bs, bs', h, e => by
    obtain ⟨ht, hts⟩ := List.forall_mem_cons.mp h
    obtain ⟨bound, hbound, e⟩ := matchInputs_cons e
    obtain ⟨hhead, label, rest, hfirst⟩ := begins_matchValue hD t v bs bound ht hbound
    obtain ⟨htail, hcover⟩ := reaches_matchInputs hD ts vs bound bs' hts e
    unfold placesInputs
    rw [hbound]
    refine ⟨hhead.append htail, List.forall_mem_cons.mpr ⟨⟨label, ?_⟩, ?_⟩⟩
    · exact List.mem_append_left _ (hfirst ▸ List.mem_cons_self)
    · exact hcover.mono (List.subset_append_right _ _)

theorem begins_matchHead (hD : Hereditary D) : ∀ (ts : List Term) (v : Value)
    (bs bs' : Bindings), (∀ t ∈ ts, D t) → matchHead g ts v bs = (true, bs') →
    ∃ u ∈ ts, Begins g D u v bs bs' (placesHead g ts v bs)
  | [], v, bs, bs', _, e => by
    unfold matchHead at e
    cases (Prod.mk.inj e).1
  | t :: ts, v, bs, bs', h, e => by
    unfold matchHead at e
    unfold placesHead
    exact ⟨t, List.mem_cons_self, begins_matchValue hD t v bs bs' (h t List.mem_cons_self) e⟩

theorem begins_matchBranches (hD : Hereditary D) : ∀ (ts : List Term) (v : Value)
    (bs bs' : Bindings), (∀ t ∈ ts, D t) → matchBranches g ts v bs = (true, bs') →
    ∃ u ∈ ts, Begins g D u v bs bs' (placesBranches g ts v bs)
  | [], v, bs, bs', _, e => by
    unfold matchBranches at e
    cases (Prod.mk.inj e).1
  | t :: ts, v, bs, bs', h, e => by
    obtain ⟨ht, hts⟩ := List.forall_mem_cons.mp h
    unfold matchBranches at e
    unfold placesBranches
    rcases hm : t.matchValue g v bs with ⟨_ | _, bound⟩
    · rw [hm] at e
      obtain ⟨u, hu, h⟩ := begins_matchBranches hD ts v bs bs' hts e
      exact ⟨u, List.mem_cons_of_mem _ hu, h⟩
    · rw [hm] at e
      obtain rfl := (Prod.mk.inj e).2
      exact ⟨t, List.mem_cons_self, begins_matchValue hD t v bs bound ht hm⟩
end

end Term

/-! ### Matches of a pattern -/

namespace Pattern

variable {p : Pattern} {m : Match}

def places (p : Pattern) (g : Graph) (v : Value) : List Place := p.root.places g v []

/-- A match begins at its root. Each of its places comes down to a binding of the match: that of
the placeholder, or that of the one that stands in for it there. Each binding has a place of its
own, and from there the inputs of an operation are reached. Two places of one placeholder have the
same value exactly if what is bound at the one and at the other has. They do if no other placeholder
stands in for it at either of them, and none ever does unless it is an optional one or a choice. -/
theorem reached_once (hp : p.Built) (e : p.matchOutput g v = some m) :
    (∃ bound rest, p.places g v = ⟨p.root, v, bound⟩ :: rest) ∧
    (∀ s ∈ p.places g v, m.value? s.bound = some s.value ∧ s.Resolved (p.places g v)) ∧
    (∀ b ∈ m.bindings, b.Reached g (p.places g v)) ∧
    ∀ s ∈ p.places g v, ∀ s' ∈ p.places g v, s.term.label = s'.term.label →
      s.term = s'.term ∧ (s.value = s'.value ↔ m.value? s.bound = m.value? s'.bound) ∧
      (s.bound = s.term.label → s'.bound = s'.term.label → s.value = s'.value) ∧
      (s.term.isChoice = false → s.value = s'.value) := by
  obtain ⟨hnodup, -⟩ := holds_of_matchOutput hp e
  obtain ⟨ts, made, hroot, -⟩ := hp
  have hts := made.scope
  obtain ⟨bs, hbs, rfl⟩ : ∃ bs, p.root.matchValue g v [] = (true, bs) ∧ m = ⟨v, bs.reverse⟩ := by
    unfold matchOutput at e
    split at e
    · rename_i bs hbs
      exact ⟨bs, hbs, (Option.some.inj e).symm⟩
    · cases e
  obtain ⟨h, hhead⟩ := Term.begins_matchValue (D := (· ∈ ts))
    (fun t ht u hu => (hts.parts t ht u hu).1) p.root v [] bs hroot hbs
  have hbound : ∀ s ∈ p.places g v, Match.value? ⟨v, bs.reverse⟩ s.bound = some s.value := by
    intro s hs
    obtain ⟨b, hb, hlabel, hvalue⟩ := h.bound s hs
    rw [← hlabel, ← hvalue]
    exact Bindings.within_value? hnodup b (List.mem_reverse.mpr hb)
  refine ⟨hhead, fun s hs => ⟨hbound s hs, h.resolved s hs⟩, fun b hb => ?_, ?_⟩
  · exact (h.reached b (List.mem_reverse.mp hb)).resolve_left List.not_mem_nil
  · intro s hs s' hs' hlabel
    have hterm := hts.unique _ (h.terms s hs) _ (h.terms s' hs') hlabel
    have hiff : s.value = s'.value ↔
        Match.value? ⟨v, bs.reverse⟩ s.bound = Match.value? ⟨v, bs.reverse⟩ s'.bound := by
      rw [hbound s hs, hbound s' hs', Option.some.injEq]
    have hown (ho : s.bound = s.term.label) (ho' : s'.bound = s'.term.label) :
        s.value = s'.value := by
      rw [hiff, ho, ho', hlabel]
    refine ⟨hterm, hiff, hown, fun hchoice => hown ?_ ?_⟩
    · exact (h.resolved s hs).resolve_right fun hr => Bool.false_ne_true (hchoice.symm.trans hr.1)
    · exact (h.resolved s' hs').resolve_right fun hr =>
        Bool.false_ne_true (hchoice.symm.trans (hterm ▸ hr.1))

/-- Where the sum adds a value to itself, that value is the only one its operand is reached with,
also for the conversion that is left out. -/
theorem reached_once_doubled : residual.Built ∧
    ∃ m, residual.matchOutput doubled ⟨⟨1, 0⟩, 0⟩ = some m ∧
      ∀ s ∈ residual.places doubled ⟨⟨1, 0⟩, 0⟩, s.bound = 0 → s.value = ⟨⟨0, 0⟩, 0⟩ := by
  obtain ⟨m, hm, hvalue⟩ : ∃ m, residual.matchOutput doubled ⟨⟨1, 0⟩, 0⟩ = some m ∧
      m.value? 0 = some ⟨⟨0, 0⟩, 0⟩ := by
    rw [residual_eq]
    exact ⟨_, by cbv, rfl⟩
  obtain ⟨-, hplaces, -⟩ := reached_once built_residual hm
  refine ⟨built_residual, m, hm, fun s hs hbound => ?_⟩
  have hs := (hplaces s hs).1
  rw [hbound, hvalue] at hs
  exact (Option.some.inj hs).symm

/-- A sum of which either operand is a transpose or anything else. -/
def either : Pattern := Builder.finish do
  let source ← Builder.anyInput
  let turned ← Builder.wrap [.transpose] [source] .always
  let other ← Builder.anyInput
  let operand ← Builder.oneOf [turned, other]
  Builder.wrap [.add] [operand, operand] .always

/-- A sum of which either operand is what may be a conversion. -/
def converting : Pattern := Builder.finish do
  let source ← Builder.anyInput
  let converted ← Builder.optional [.convert] [source] .always
  Builder.wrap [.add] [converted, converted] .always

theorem built_either : either.Built :=
  have source := Builder.Made.input .always .start
  have turned := source.wrap [.transpose] .always (List.Subset.refl _)
  have other := turned.input .always
  have operand := other.oneOf (List.cons_subset.mpr ⟨List.mem_cons_of_mem _ List.mem_cons_self,
    List.cons_subset.mpr ⟨List.mem_cons_self, List.nil_subset _⟩⟩)
  have both := List.cons_subset.mpr ⟨List.mem_cons_self, List.cons_subset.mpr
    ⟨List.mem_cons_self, List.nil_subset _⟩⟩
  ⟨_, operand.wrap [.add] .always both, List.mem_cons_self, rfl⟩

theorem built_converting : converting.Built :=
  have source := Builder.Made.input .always .start
  have converted := source.optional [.convert] .always (List.Subset.refl _)
  have both := List.cons_subset.mpr ⟨List.mem_cons_self, List.cons_subset.mpr
    ⟨List.mem_cons_self, List.nil_subset _⟩⟩
  ⟨_, converted.wrap [.add] .always both, List.mem_cons_self, rfl⟩

/-- Two parameters, the transpose and the conversion of the first, and three sums: of the transpose
and the second parameter, of the first and its conversion, and of these two in the other order. -/
def sums : Graph :=
  let spec : Spec := ⟨.f32, .ofSizes [2, 2]⟩
  let slot (op : Primitive) (inputs uses : List (Nat × Nat)) : Slot Body :=
    ⟨0, 0, some ⟨op, inputs.map fun x => ⟨⟨x.1, 0⟩, x.2⟩,
      [⟨spec, uses.map fun x => ⟨⟨x.1, 0⟩, x.2⟩⟩], "", .empty⟩⟩
  { slots := #[
      slot (.parameter spec) [] [(2, 0), (3, 0), (5, 0), (6, 1)],
      slot (.parameter spec) [] [(4, 1)],
      slot (.transpose [1, 0]) [(0, 0)] [(4, 0)],
      slot (.convert .f32) [(0, 0)] [(5, 1), (6, 0)],
      slot .add [(2, 0), (1, 0)] [],
      slot .add [(0, 0), (3, 0)] [],
      slot .add [(3, 0), (0, 0)] []]
    free := []
    parameters := [⟨0, 0⟩, ⟨1, 0⟩]
    results := []
    live := 7
    version := 0
    table := .standard }

/-- A choice may be reached with two values, and so may an optional placeholder that is left out
first. Taken first, it is held to its value. -/
theorem reached_apart :
    (either.Built ∧ (either.matchOutput sums ⟨⟨4, 0⟩, 0⟩).isSome = true ∧
      ∃ s ∈ either.places sums ⟨⟨4, 0⟩, 0⟩, ∃ s' ∈ either.places sums ⟨⟨4, 0⟩, 0⟩,
        s.term.label = s'.term.label ∧ s.value ≠ s'.value) ∧
    (converting.Built ∧ (converting.matchOutput sums ⟨⟨5, 0⟩, 0⟩).isSome = true ∧
      ∃ s ∈ converting.places sums ⟨⟨5, 0⟩, 0⟩, ∃ s' ∈ converting.places sums ⟨⟨5, 0⟩, 0⟩,
        s.term.label = s'.term.label ∧ s.value ≠ s'.value) ∧
    (converting.matchOutput sums ⟨⟨6, 0⟩, 0⟩).isNone = true := by
  have apart {p : Pattern} {v : Value} (l : Nat) (w w' : Value) (hne : w ≠ w')
      (h : (l, w) ∈ (p.places sums v).map fun s => (s.term.label, s.value))
      (h' : (l, w') ∈ (p.places sums v).map fun s => (s.term.label, s.value)) :
      ∃ s ∈ p.places sums v, ∃ s' ∈ p.places sums v,
        s.term.label = s'.term.label ∧ s.value ≠ s'.value := by
    obtain ⟨s, hs, e⟩ := List.mem_map.mp h
    obtain ⟨s', hs', e'⟩ := List.mem_map.mp h'
    obtain ⟨rfl, rfl⟩ := Prod.mk.inj e
    obtain ⟨hlabel, rfl⟩ := Prod.mk.inj e'
    exact ⟨s, hs, s', hs', hlabel.symm, hne⟩
  refine ⟨⟨built_either, by rfl, ?_⟩, ⟨built_converting, by rfl, ?_⟩, by rfl⟩
  · exact apart 3 ⟨⟨2, 0⟩, 0⟩ ⟨⟨1, 0⟩, 0⟩ (by decide) (by decide) (by decide)
  · exact apart 1 ⟨⟨0, 0⟩, 0⟩ ⟨⟨3, 0⟩, 0⟩ (by decide) (by decide) (by decide)

end Pattern

end TensorGraph
