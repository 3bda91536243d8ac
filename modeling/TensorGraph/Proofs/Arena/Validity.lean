import TensorGraph.Proofs.Arena.Order

/-! # Validity

Validation accepts every well-formed arena. What it accepts is well formed, as long as the anchors
are of the right kinds and the bookkeeping of slots is right, which it does not look at.
-/

namespace TensorGraph

theorem bind_eq_ok_iff {α γ ε : Type} {x : Except ε α} {f : α → Except ε γ} {c : γ} :
    (x >>= f) = .ok c ↔ ∃ b, x = .ok b ∧ f b = .ok c := by
  cases x with
  | error e => simp [bind, Except.bind]
  | ok b => simp [bind, Except.bind]

theorem map_eq_ok_iff {α γ ε : Type} {x : Except ε α} {f : α → γ} {c : γ} :
    x.map f = .ok c ↔ ∃ a, x = .ok a ∧ f a = c := by
  cases x <;> simp [Except.map]

theorem map_toOption_eq_some_iff {α γ ε : Type} {x : Except ε α} {f : α → γ} {c : γ} :
    x.toOption.map f = some c ↔ ∃ b, x = .ok b ∧ f b = c := by
  cases x with
  | error e => simp [Except.toOption]
  | ok b => simp [Except.toOption]

theorem forM_eq_ok_iff {α ε : Type} {f : α → Except ε Unit} {l : List α} :
    l.forM f = .ok () ↔ ∀ x ∈ l, f x = .ok () := by
  induction l with
  | nil => simp [pure, Except.pure]
  | cons x l ih =>
    change (f x >>= fun _ => l.forM f) = .ok () ↔ _
    rw [List.forall_mem_cons, ← ih, bind_eq_ok_iff]
    exact ⟨fun ⟨_, h⟩ => h, fun h => ⟨(), h⟩⟩

theorem bind_eq_error_iff {α γ ε : Type} {r : Except ε α} {f : α → Except ε γ} {e : ε} :
    (r >>= f) = .error e ↔ r = .error e ∨ ∃ c, r = .ok c ∧ f c = .error e := by
  cases r with
  | error e => simp [bind, Except.bind]
  | ok c => simp [bind, Except.bind]

theorem map_eq_error_iff {α γ ε : Type} {r : Except ε α} {f : α → γ} {e : ε} :
    r.map f = .error e ↔ r = .error e := by
  cases r <;> simp [Except.map]

theorem ok_ne_error {α ε : Type} {a : α} {e : ε} : (.ok a : Except ε α) ≠ .error e := nofun

theorem bind_ne_error {α γ ε : Type} {r : Except ε α} {f : α → Except ε γ} {e : ε}
    (hr : r ≠ .error e) (hf : ∀ a, r = .ok a → f a ≠ .error e) : (r >>= f) ≠ .error e := by
  rw [Ne, bind_eq_error_iff]
  rintro (h | ⟨a, ha, h⟩)
  · exact hr h
  · exact hf a ha h

theorem mapM_ne_error {α γ ε : Type} {l : List α} {f : α → Except ε γ} {e : ε}
    (h : ∀ x ∈ l, f x ≠ .error e) : l.mapM f ≠ .error e := by
  induction l with
  | nil => exact ok_ne_error
  | cons x l ih =>
    obtain ⟨hx, hl⟩ := List.forall_mem_cons.mp h
    rw [List.mapM_cons]
    exact bind_ne_error hx fun _ _ => bind_ne_error (ih hl) fun _ _ => ok_ne_error

theorem exists_of_forM_eq_error {α ε : Type} {f : α → Except ε Unit} {l : List α} {e : ε}
    (h : l.forM f = .error e) : ∃ x ∈ l, f x = .error e := by
  induction l with
  | nil => cases h
  | cons x l ih =>
    rcases bind_eq_error_iff.mp h with h | ⟨-, -, h⟩
    · exact ⟨x, List.mem_cons_self, h⟩
    · obtain ⟨y, hy, he⟩ := ih h
      exact ⟨y, List.mem_cons_of_mem _ hy, he⟩

theorem mapM_eq_ok_iff {α γ ε : Type} {f : α → Except ε γ} {f' : α → Option γ}
    (h : ∀ x y, f x = .ok y ↔ f' x = some y) {l : List α} {ys : List γ} :
    l.mapM f = .ok ys ↔ l.map f' = ys.map some := by
  induction l generalizing ys with
  | nil => cases ys <;> simp [pure, Except.pure]
  | cons x l ih =>
    rw [List.mapM_cons, bind_eq_ok_iff]
    simp only [bind_eq_ok_iff, ih, h]
    cases ys with
    | nil => simp [pure, Except.pure]
    | cons y ys => simp [pure, Except.pure, and_comm]

theorem mapM_eq_some_iff {α γ : Type} {f : α → Option γ} {l : List α} {ys : List γ} :
    l.mapM f = some ys ↔ l.map f = ys.map some := by
  induction l generalizing ys with
  | nil => cases ys <;> simp
  | cons x l ih =>
    rw [List.mapM_cons]
    simp only [bind, Option.bind_eq_some_iff, ih]
    cases ys with
    | nil => simp
    | cons y ys => simp [and_comm]

namespace Arena

variable {β : Type} {a : Arena β} {x id : NodeId} {n : Node β} {v : Value} {u : Use}

theorem node_eq_ok_iff : a.node id = .ok n ↔ a.node? id = some n := by
  unfold node
  split
  · rename_i h
    simp [h]
  · rename_i h
    simp [h]

theorem checkInput_eq_ok_iff :
    a.checkInput v u = .ok () ↔ a.hasOutput v = true ∧ (a.uses v).count u = 1 := by
  unfold checkInput
  split
  · rename_i ho
    simp [hasOutput, ho]
  · rename_i o ho
    rw [uses_of_output? ho, hasOutput, ho]
    split <;> simp [*]

theorem checkOutput_eq_ok_iff {o : Output} (ho : a.output? v = some o) :
    a.checkOutput v o = .ok () ↔ ∀ u ∈ a.uses v, a.producer? u = some v := by
  rw [uses_of_output? ho, checkOutput]
  split
  · rename_i hall
    simpa using hall
  · rename_i hall
    simpa using hall

theorem checkNode_eq_ok_iff (hid : a.node? id = some n) : a.checkNode id = .ok () ↔
    (∀ port v, n.inputs[port]? = some v → a.checkInput v (id.input port) = .ok ()) ∧
      ∀ port o, n.outputs[port]? = some o → a.checkOutput (id.output port) o = .ok () := by
  simp only [Arena.checkNode, node_eq_ok_iff.mpr hid, bind_eq_ok_iff, Except.ok.injEq,
    exists_eq_left']
  constructor
  · rintro ⟨⟨⟩, hinputs, houtputs⟩
    refine ⟨fun port v hv => ?_, fun port o ho => ?_⟩
    · exact forM_eq_ok_iff.mp hinputs (v, port) (List.mem_zipIdx_iff_getElem?.mpr hv)
    · exact forM_eq_ok_iff.mp houtputs (o, port) (List.mem_zipIdx_iff_getElem?.mpr ho)
  · rintro ⟨hinputs, houtputs⟩
    exact ⟨(), forM_eq_ok_iff.mpr fun x hx => hinputs x.2 x.1 (List.mem_zipIdx_iff_getElem?.mp hx),
      forM_eq_ok_iff.mpr fun x hx => houtputs x.2 x.1 (List.mem_zipIdx_iff_getElem?.mp hx)⟩

/-- The checks of all nodes pass exactly if inputs and lists of uses agree. -/
theorem forM_checkNode_eq_ok_iff : a.nodeIds.forM a.checkNode = .ok () ↔ a.Linked := by
  rw [forM_eq_ok_iff]
  constructor
  · intro hchecks v u
    have hcheck {id : NodeId} {n : Node β} (hn : a.node? id = some n) :=
      (checkNode_eq_ok_iff hn).mp (hchecks id (mem_nodeIds_iff.mpr ⟨n, hn⟩))
    split
    · rename_i hu
      obtain ⟨n, hn, hport⟩ := producer?_eq_some_iff.mp hu
      exact (checkInput_eq_ok_iff.mp ((hcheck hn).1 u.port v hport)).2
    · rename_i hu
      refine List.count_eq_zero.mpr fun hm => hu ?_
      obtain ⟨o, ho⟩ := Option.isSome_iff_exists.mp (hasOutput_of_mem_uses hm)
      obtain ⟨n, hn, hport⟩ := output?_eq_some_iff.mp ho
      exact (checkOutput_eq_ok_iff ho).mp ((hcheck hn).2 v.port o hport) u hm
  · intro hl id hid
    obtain ⟨n, hn⟩ := mem_nodeIds_iff.mp hid
    refine (checkNode_eq_ok_iff hn).mpr ⟨fun port v hv => ?_, fun port o ho => ?_⟩
    · have hu : a.producer? (id.input port) = some v := producer?_eq_some_iff.mpr ⟨n, hn, hv⟩
      exact checkInput_eq_ok_iff.mpr ⟨hl.hasOutput hu, by rw [hl, if_pos hu]⟩
    · have ho' : a.output? (id.output port) = some o := output?_eq_some_iff.mpr ⟨n, hn, ho⟩
      exact (checkOutput_eq_ok_iff ho').mpr fun u hu => hl.mem_uses_iff.mp hu

theorem discard_eq_ok_iff {α ε : Type} {x : Except ε α} : discard x = .ok () ↔ ∃ y, x = .ok y := by
  cases x <;> simp [discard, Functor.discard, Functor.mapConst, Except.map]

theorem validate_eq_ok : a.validate = .ok () ↔ a.Linked ∧
    (∀ id ∈ a.parameters ++ a.results, a.contains id = true) ∧
      ∃ order, a.topologicalOrder = .ok order := by
  have hanchors : (a.parameters ++ a.results).forM (fun id => discard (a.node id)) = .ok () ↔
      ∀ id ∈ a.parameters ++ a.results, a.contains id = true := by
    simp only [forM_eq_ok_iff, discard_eq_ok_iff, node_eq_ok_iff, contains_iff]
  rw [← forM_checkNode_eq_ok_iff, ← hanchors, ← discard_eq_ok_iff, Arena.validate]
  simp only [bind_eq_ok_iff]
  constructor
  · rintro ⟨⟨⟩, hnodes, ⟨⟩, hlisted, horder⟩
    exact ⟨hnodes, hlisted, horder⟩
  · rintro ⟨hnodes, hlisted, horder⟩
    exact ⟨(), hnodes, (), hlisted, horder⟩

/-- There is an order of an arena whose edges agree exactly if there is no cycle. -/
theorem Linked.exists_topologicalOrder_iff (hl : a.Linked) (hlive : a.live = a.occupied) :
    (∃ order, a.topologicalOrder = .ok order) ↔ a.Acyclic := by
  constructor
  · rintro ⟨order, horder⟩
    obtain ⟨hordered, hperm⟩ := hl.topologicalOrder_sound hlive horder
    exact hordered.acyclic fun x hx => hperm.mem_iff.mpr (mem_nodeIds_iff_contains.mpr hx)
  · exact fun hc => ⟨_, hl.topologicalOrder_eq hc hlive⟩

theorem WellFormed.validate (h : a.WellFormed) : a.validate = .ok () := by
  refine validate_eq_ok.mpr ⟨h.linked, fun id hid => ?_,
    (h.linked.exists_topologicalOrder_iff h.live).mpr h.acyclic⟩
  rcases List.mem_append.mp hid with hp | hr
  · exact contains_of_kind? (h.parameters id hp)
  · exact contains_of_kind? (h.results id hr)

/-- Validation establishes all but the kinds of the anchors and the bookkeeping of slots. -/
theorem wellFormed_of_validate (e : a.validate = .ok ())
    (hparameters : ∀ id ∈ a.parameters, a.kind? id = some .parameter)
    (hresults : ∀ id ∈ a.results, a.kind? id = some .result)
    (hfree : a.free.Nodup) (hvacant : ∀ index ∈ a.free, a.Vacant index)
    (hlive : a.live = a.occupied) : a.WellFormed := by
  obtain ⟨hlinked, -, horder⟩ := validate_eq_ok.mp e
  have hacyclic := (hlinked.exists_topologicalOrder_iff hlive).mp horder
  exact ⟨hlinked, hacyclic, hparameters, hresults, hfree, hvacant, hlive⟩

/-- The inputs read what is there, an output lists what reads it and lists it once, the anchors
are there, and no node depends on itself. -/
structure Valid (a : Arena β) : Prop where
  inputs : ∀ u v, a.producer? u = some v → a.hasOutput v = true
  uses_nodup : ∀ v, a.hasOutput v = true → (a.uses v).Nodup
  mem_uses : ∀ v, a.hasOutput v = true → ∀ u, u ∈ a.uses v ↔ a.producer? u = some v
  anchors : ∀ id ∈ a.parameters ++ a.results, a.contains id = true
  acyclic : a.Acyclic

theorem Valid.linked (h : a.Valid) : a.Linked := by
  intro v u
  split
  · rename_i hu
    have hv := h.inputs u v hu
    exact List.count_eq_one_of_mem (h.uses_nodup v hv) ((h.mem_uses v hv u).mpr hu)
  · rename_i hu
    refine List.count_eq_zero.mpr fun hm => hu ?_
    exact (h.mem_uses v (hasOutput_of_mem_uses hm) u).mp hm

/-- Whatever state an arena is in, as long as its nodes are counted right, validation accepts it
exactly if it is valid. -/
theorem validate_eq_ok_iff (hlive : a.live = a.occupied) : a.validate = .ok () ↔ a.Valid := by
  rw [validate_eq_ok]
  constructor
  · rintro ⟨hl, hanchors, horder⟩
    exact ⟨fun u v => hl.hasOutput, fun v _ => hl.nodup_uses v, fun v _ u => hl.mem_uses_iff,
      hanchors, (hl.exists_topologicalOrder_iff hlive).mp horder⟩
  · intro h
    exact ⟨h.linked, h.anchors, (h.linked.exists_topologicalOrder_iff hlive).mpr h.acyclic⟩

/-- A sum of a parameter with itself, and two more sums that read each other. -/
def looped : Graph where
  slots := #[
    ⟨0, 0, some ⟨Primitive.parameter ⟨.f32, .ofSizes [2]⟩, [],
      [⟨⟨.f32, .ofSizes [2]⟩, [⟨⟨1, 0⟩, 0⟩, ⟨⟨1, 0⟩, 1⟩]⟩], "", .empty⟩⟩,
    ⟨0, 0, some ⟨Primitive.add, [⟨⟨0, 0⟩, 0⟩, ⟨⟨0, 0⟩, 0⟩],
      [⟨⟨.f32, .ofSizes [2]⟩, [⟨⟨2, 0⟩, 0⟩]⟩], "", .empty⟩⟩,
    ⟨0, 0, some ⟨Primitive.add, [⟨⟨1, 0⟩, 0⟩, ⟨⟨3, 0⟩, 0⟩],
      [⟨⟨.f32, .ofSizes [2]⟩, [⟨⟨3, 0⟩, 0⟩, ⟨⟨3, 0⟩, 1⟩]⟩], "", .empty⟩⟩,
    ⟨0, 0, some ⟨Primitive.add, [⟨⟨2, 0⟩, 0⟩, ⟨⟨2, 0⟩, 0⟩],
      [⟨⟨.f32, .ofSizes [2]⟩, [⟨⟨2, 0⟩, 1⟩]⟩], "", .empty⟩⟩]
  free := []
  parameters := [⟨0, 0⟩]
  results := []
  live := 4
  version := 0
  table := .standard

theorem linked_looped : looped.Linked := forM_checkNode_eq_ok_iff.mp (by cbv)

theorem not_acyclic_looped : ¬ looped.Acyclic := by
  have hout : ⟨3, 0⟩ ∈ looped.producers ⟨2, 0⟩ := by decide
  have hback : ⟨2, 0⟩ ∈ looped.producers ⟨3, 0⟩ := by decide
  exact fun h => h ⟨2, 0⟩ (.head hout (.single hback))

/-- A sum in a recycled slot reads the second output of a node twice. One parameter is not read. -/
def recycled : Graph where
  slots := #[
    ⟨1, 0, some ⟨Primitive.add, [⟨⟨2, 0⟩, 1⟩, ⟨⟨2, 0⟩, 1⟩],
      [⟨⟨.i64, .ofRank 1⟩, [⟨⟨3, 0⟩, 0⟩]⟩], "", .empty⟩⟩,
    ⟨0, 0, some ⟨Primitive.parameter ⟨.f32, .ofRank 1⟩, [],
      [⟨⟨.f32, .ofRank 1⟩, [⟨⟨2, 0⟩, 0⟩]⟩], "", .empty⟩⟩,
    ⟨0, 0, some ⟨Primitive.unique .i64 (some 0), [⟨⟨1, 0⟩, 0⟩],
      [⟨⟨.f32, .ofRank 1⟩, []⟩, ⟨⟨.i64, .ofRank 1⟩, [⟨⟨0, 1⟩, 0⟩, ⟨⟨0, 1⟩, 1⟩]⟩,
        ⟨⟨.i64, .ofRank 1⟩, []⟩, ⟨⟨.i64, .ofRank 1⟩, []⟩], "", .empty⟩⟩,
    ⟨0, 0, some ⟨Primitive.result, [⟨⟨0, 1⟩, 0⟩], [], "", .empty⟩⟩,
    ⟨1, 0, none⟩,
    ⟨0, 0, some ⟨Primitive.parameter ⟨.f32, .ofRank 1⟩, [],
      [⟨⟨.f32, .ofRank 1⟩, []⟩], "", .empty⟩⟩]
  free := [4]
  parameters := [⟨1, 0⟩, ⟨5, 0⟩]
  results := [⟨3, 0⟩]
  live := 5
  version := 0
  table := .standard

theorem validate_recycled : recycled.validate = .ok () := by cbv

theorem wellFormed_recycled : recycled.WellFormed :=
  wellFormed_of_validate validate_recycled (by decide) (by decide) (by decide)
    (fun index h => ⟨⟨1, 0, none⟩, by obtain rfl := List.mem_singleton.mp h; rfl, rfl, rfl⟩)
    (by decide)

/-- The cycle is found although all inputs and uses agree. -/
theorem validate_looped_recycled :
    looped.live = looped.occupied ∧ looped.Linked ∧ ¬ looped.Valid ∧ looped.validate ≠ .ok () ∧
      recycled.live = recycled.occupied ∧ recycled.validate = .ok () ∧ recycled.Valid := by
  have hlive : looped.live = looped.occupied := by decide
  have hinvalid : ¬ looped.Valid := fun h => not_acyclic_looped h.acyclic
  have hlive' : recycled.live = recycled.occupied := by decide
  exact ⟨hlive, linked_looped, hinvalid, (validate_eq_ok_iff hlive).not.mpr hinvalid, hlive',
    validate_recycled, (validate_eq_ok_iff hlive').mp validate_recycled⟩

end Arena

end TensorGraph
