import TensorGraph.Proofs.Rewrite.History

/-! # Anchor lists

Every edit puts the anchors that it adds on the lists of parameters and results, but a commit does
not do so with the anchors staged in its plan. Nothing takes an anchor from its list or out of the
graph, so that an anchor is off its list exactly if a commit inserted it.
-/

namespace TensorGraph

variable {β : Type}

/-- The handles of the staged nodes of a kind that a command puts in. -/
def Command.Inserts (a : Arena β) (kind : Kind) (id : NodeId) : Command β → Prop
  | .commit p => ∃ done, a.commit p = .ok done ∧
      ∃ (i : Nat) (n : StagedNode β), p.staged[i]? = some n ∧ n.op.kind = kind ∧
        done.2.inserted[i]? = some id
  | _ => False

namespace Arena

variable {a b c : Arena β} {x id : NodeId} {n : Node β} {kind : Kind} {p : Plan β}
variable {ids : List NodeId} {inserted : NodeId → Prop} {k : Nat}

def listed (a : Arena β) : Kind → List NodeId
  | .parameter => a.parameters
  | .result => a.results
  | _ => []

/-- The node is of the kind but not on its list. -/
def Omits (a : Arena β) (kind : Kind) (id : NodeId) : Prop :=
  a.kind? id = some kind ∧ id ∉ a.listed kind

theorem WellFormed.kind?_of_listed (ha : a.WellFormed) (h : id ∈ a.listed kind) :
    a.kind? id = some kind := by
  unfold listed at h
  split at h
  · exact ha.parameters id h
  · exact ha.results id h
  · cases h

theorem WellFormed.contains_of_listed (ha : a.WellFormed) (h : id ∈ a.listed kind) :
    a.contains id = true :=
  contains_of_kind? (ha.kind?_of_listed h)

theorem listed_congr (hparameters : b.parameters = a.parameters) (hresults : b.results = a.results)
    (kind : Kind) : b.listed kind = a.listed kind := by
  unfold listed
  split
  · exact hparameters
  · exact hresults
  · rfl

theorem listed_enlist_self (h : kind.isAnchor = true) (id : NodeId) :
    (a.enlist kind id).listed kind = a.listed kind ++ [id] := by
  cases kind with
  | parameter => rfl
  | result => rfl
  | _ => cases h

theorem listed_enlist_of_ne {other : Kind} (h : other ≠ kind) (id : NodeId) :
    (a.enlist other id).listed kind = a.listed kind := by
  unfold enlist
  split
  · cases kind <;> first | rfl | exact absurd rfl h
  · cases kind <;> first | rfl | exact absurd rfl h
  · rfl

/-- The list of a kind goes on without repetitions, and it leaves out what it left out before and
what is said to be inserted. -/
structure Enlists (a b : Arena β) (kind : Kind) (inserted : NodeId → Prop) : Prop where
  nodup : (a.listed kind).Nodup → (b.listed kind).Nodup
  omits : ∀ id, b.Omits kind id ↔ a.Omits kind id ∨ inserted id

theorem enlists_of_same (hlist : b.listed kind = a.listed kind)
    (hkind : ∀ id, b.kind? id = some kind ↔ a.kind? id = some kind) :
    a.Enlists b kind fun _ => False where
  nodup h := hlist ▸ h
  omits id := by rw [Omits, Omits, hlist, hkind, or_false]

theorem Enlists.refl (a : Arena β) (kind : Kind) : a.Enlists a kind fun _ => False :=
  enlists_of_same rfl fun _ => Iff.rfl

theorem Enlists.trans (h : a.Enlists b kind inserted) (h' : b.Enlists c kind fun _ => False) :
    a.Enlists c kind inserted where
  nodup hnodup := h'.nodup (h.nodup hnodup)
  omits id := by rw [h'.omits, or_false, h.omits]

/-! ### Edits -/

theorem enlists_modifyNode {f : Node β → Node β} (hf : ∀ n, (f n).kind = n.kind) (i : Nat) :
    a.Enlists (a.modifyNode i f) kind fun _ => False := by
  refine enlists_of_same (listed_congr rfl rfl kind) fun id => ?_
  rw [kind?, node?_modifyNode]
  split
  · rw [Option.map_map]
    exact iff_of_eq (congrArg (· = some kind) (Option.map_congr fun n _ => hf n))
  · rfl

theorem enlists_updateNode {f : Node β → Node β} (hf : ∀ n, (f n).kind = n.kind)
    (e : a.updateNode id f = .ok b) : a.Enlists b kind fun _ => False := by
  obtain ⟨-, rfl⟩ := updateNode_eq_ok_iff.mp e
  exact enlists_modifyNode hf id.index

theorem enlists_copyAnnotations {sources destinations : List NodeId}
    (e : a.copyAnnotations sources destinations = .ok b) : a.Enlists b kind fun _ => False := by
  refine copyAnnotations_induction (P := fun b => a.Enlists b kind fun _ => False) (.refl a kind)
    (fun c merged id hc => hc.trans ?_) e
  apply enlists_modifyNode _ id.index
  exact fun n => rfl

theorem enlists_inferAll [Described β] (ids : List NodeId) :
    a.Enlists (a.inferAll ids).1 kind fun _ => False := by
  induction ids generalizing a with
  | nil => exact .refl a kind
  | cons id ids ih =>
    unfold inferAll
    split
    · apply Enlists.trans (enlists_modifyNode _ id.index) ih
      exact fun n => rfl
    · exact .refl a kind

theorem enlists_revalidate [Described β] (a : Arena β) :
    a.Enlists a.revalidate.1 kind fun _ => False := by
  unfold revalidate
  split
  · exact .refl a kind
  · rename_i order _
    have h : a.Enlists (a.inferAll order).1 kind fun _ => False := enlists_inferAll order
    split <;> rename_i e <;> rw [e] at h
    · exact h.trans (enlists_of_same rfl fun _ => Iff.rfl)
    · exact h

theorem Grown.enlists {op : Operation β} {inputs : List Value} (h : a.Grown b id op inputs)
    (ha : a.WellFormed) (hk : kind.isAnchor = true)
    (hlist : b.listed kind = (a.enlist op.kind id).listed kind) :
    a.Enlists b kind fun _ => False := by
  have hnot : id ∉ a.listed kind := fun hid => h.fresh (ha.contains_of_listed hid)
  have hnew : b.kind? id = some op.kind := by
    obtain ⟨n, hn, rfl, -⟩ := h.new
    rw [kind?_eq_bare, hn]
    rfl
  have hold (x : NodeId) (hx : x ≠ id) : b.kind? x = a.kind? x := by
    rw [kind?_eq_bare, kind?_eq_bare, h.old x hx]
  have hgone : a.kind? id ≠ some kind := fun he => h.fresh (contains_of_kind? he)
  by_cases he : op.kind = kind
  · rw [he, listed_enlist_self hk] at hlist
    refine ⟨fun hnodup => ?_, fun x => ?_⟩
    · rw [hlist]
      exact hnodup.append (List.nodup_singleton id) (List.disjoint_singleton.mpr hnot)
    · rw [Omits, Omits, hlist, or_false]
      by_cases hx : x = id
      · simp [hx, hgone]
      · simp [hx, hold x hx]
  · rw [listed_enlist_of_ne he] at hlist
    apply enlists_of_same hlist
    intro x
    by_cases hx : x = id
    · simp [hx, hnew, hgone, he]
    · rw [hold x hx]

theorem Releases.enlists (h : a.Releases k b) (ha : a.WellFormed) (hk : kind.isAnchor = true) :
    a.Enlists b kind fun _ => False := by
  have hr := h.remains ha
  apply enlists_of_same (listed_congr hr.parameters hr.results kind)
  intro id
  have hbare (hid : b.contains id = true) : b.kind? id = a.kind? id := by
    rw [kind?_eq_bare, kind?_eq_bare, hr.bare id hid]
  constructor
  · intro he
    rwa [← hbare (contains_of_kind? he)]
  · intro he
    obtain ⟨n, hn, rfl⟩ := kind?_eq_some_iff.mp he
    rwa [hbare (hr.kept id n hn (.inr hk))]

theorem enlists_modifyPins (i : Nat) (f : UInt32 → UInt32) :
    a.Enlists (a.modifyPins i f) kind fun _ => False :=
  enlists_of_same (listed_congr rfl rfl kind) fun id => by
    rw [kind?_congr (bare?_of_node? (node?_modifyPins i f))]

/-! ### Commits -/

theorem Rewired.enlists (h : a.Rewired b p ids) (ha : a.WellFormed) :
    a.Enlists b kind fun id => ∃ (i : Nat) (n : StagedNode β),
      p.staged[i]? = some n ∧ n.op.kind = kind ∧ ids[i]? = some id := by
  have hlist := listed_congr h.parameters h.results kind
  refine ⟨fun hnodup => hlist ▸ hnodup, fun id => ?_⟩
  rw [Omits, Omits, hlist]
  by_cases hid : id ∈ ids
  · obtain ⟨i, n, name, hn, hi, hbare⟩ := h.exists_staged hid
    have hnot : id ∉ a.listed kind := fun hmem => h.fresh id hid (ha.contains_of_listed hmem)
    have hnone : a.kind? id = none := by
      rw [kind?, node?_eq_none (h.fresh id hid), Option.map_none]
    have hkind : b.kind? id = some n.op.kind := by
      rw [kind?_eq_bare, hbare]
      rfl
    rw [hkind, hnone]
    constructor
    · rintro ⟨he, -⟩
      exact .inr ⟨i, n, hn, Option.some.inj he, hi⟩
    · rintro (⟨hfalse, -⟩ | ⟨j, m, hm, rfl, hj⟩)
      · cases hfalse
      · obtain rfl := h.nodup.getElem_inj_iff.mp ((List.getElem?_eq_some_iff.mp hi).2.trans
          (List.getElem?_eq_some_iff.mp hj).2.symm)
        obtain rfl := Option.some.inj (hn.symm.trans hm)
        exact ⟨rfl, hnot⟩
  · rw [h.kind?_old hid]
    constructor
    · exact .inl
    · rintro (h | ⟨i, n, -, -, hi⟩)
      · exact h
      · exact absurd (List.mem_of_getElem? hi) hid

theorem enlists_commit (ha : a.WellFormed) (hk : kind.isAnchor = true) {done : Arena β × Commit}
    (e : a.commit p = .ok done) :
    a.Enlists done.1 kind ((Command.commit p).Inserts a kind) := by
  obtain ⟨hp, rfl⟩ := commit_eq_ok_iff.mp e
  have hrewired := rewired_rewire ha hp
  have hreleased := (releases_released a p).enlists hrewired.wellFormed hk
  have h := Enlists.trans (hrewired.enlists ha) hreleased
  have hinserts (id : NodeId) : (Command.commit p).Inserts a kind id ↔
      ∃ (i : Nat) (n : StagedNode β), p.staged[i]? = some n ∧ n.op.kind = kind ∧
        (a.rewire p).2[i]? = some id := by
    rw [Command.Inserts, e]
    simp only [Except.ok.injEq, exists_eq_left', apply_eq]
  refine ⟨fun hnodup => ?_, fun id => ?_⟩
  · rw [apply_eq]
    exact h.nodup hnodup
  · rw [hinserts, ← h.omits, apply_eq]
    rfl

/-! ### Commands and histories -/

variable [Described β]

theorem enlists_addNode (ha : a.WellFormed) (hk : kind.isAnchor = true) {op : Operation β}
    {inputs : List Value} (e : a.addNode op inputs = .ok (b, id)) :
    a.Enlists b kind fun _ => False := by
  obtain ⟨specs, outputs, -, -, e⟩ := addNode_eq_ok_iff.mp e
  obtain ⟨hparameters, hresults⟩ := addVerbatim_lists ha e
  exact (ha.grown_addVerbatim e).enlists ha hk (listed_congr hparameters hresults kind)

theorem enlists_perform (ha : a.WellFormed) (hk : kind.isAnchor = true) (c : Command β) :
    a.Enlists (c.perform a).1 kind (c.Inserts a kind) := by
  have settled {α : Type} {f : α → Arena β} {r : Except GraphError α}
      (hr : ∀ x, r = .ok x → a.Enlists (f x) kind fun _ => False) :
      a.Enlists (Command.settle a f r).1 kind fun _ => False :=
    Command.settle_induction (P := (a.Enlists · kind _)) (.refl a kind) hr
  cases c with
  | addParameter name spec =>
    obtain ⟨hparameters, hresults⟩ := addParameter_lists ha name spec
    have hlist := listed_congr (a := a.enlist .parameter _) hparameters hresults kind
    exact (ha.grown_addParameter name spec).enlists ha hk hlist
  | addNode op inputs => exact settled fun _ e => enlists_addNode ha hk e
  | addResult v => exact settled fun _ e => enlists_addNode ha hk e
  | rename id name =>
    refine settled fun b e => ?_
    rw [Arena.rename] at e
    apply enlists_updateNode _ e
    exact fun n => rfl
  | annotate id key value =>
    refine settled fun b e => ?_
    rw [Arena.annotate] at e
    apply enlists_updateNode _ e
    exact fun n => rfl
  | copyAnnotations sources destinations => exact settled fun _ e => enlists_copyAnnotations e
  | pin id =>
    refine settled fun b e => ?_
    obtain ⟨-, rfl⟩ := pin_eq_ok_iff.mp e
    exact enlists_modifyPins id.index _
  | unpin id =>
    refine settled fun done e => ?_
    obtain ⟨hid, rfl⟩ := unpin_eq_ok_iff.mp e
    have hreleases := releases_release (a.modifyPins id.index dropPin) id
    exact (enlists_modifyPins id.index _).trans (hreleases.enlists (ha.modifyPins _ hid) hk)
  | collectGarbage => exact (releases_collectGarbage a).enlists ha hk
  | replace v w =>
    refine settled fun done e => ?_
    obtain ⟨hp, rfl⟩ := replace_eq_ok_iff.mp e
    have h := enlists_commit ha hk (commit_eq_ok_iff.mpr ⟨hp, rfl⟩)
    refine ⟨h.nodup, fun id => (h.omits id).trans ?_⟩
    simp [Command.Inserts, Plan.empty, Plan.replace]
  | revalidate => exact enlists_revalidate a
  | commit p =>
    cases e : a.commit p with
    | ok done =>
      rw [Command.perform, e]
      exact enlists_commit ha hk e
    | error f =>
      rw [Command.perform, e]
      refine ⟨id, fun id => ?_⟩
      simp [Command.settle, Command.Inserts, e]

theorem nodup_listed_reached (table : CapabilityTable) (history : List (Command β))
    (hk : kind.isAnchor = true) : ((reached table history).listed kind).Nodup := by
  induction history using List.reverseRecOn with
  | nil =>
    cases kind with
    | parameter => exact List.nodup_nil
    | result => exact List.nodup_nil
    | _ => cases hk
  | append_singleton history c ih =>
    rw [reached_concat]
    exact (enlists_perform (wellFormed_reached table history) hk c).nodup ih

/-- An anchor is off its list exactly if a commit on the way inserted it. -/
theorem omits_reached_iff (table : CapabilityTable) (history : List (Command β))
    (hk : kind.isAnchor = true) : (reached table history).Omits kind id ↔
      ∃ before c after, history = before ++ c :: after ∧
        c.Inserts (reached table before) kind id := by
  induction history using List.reverseRecOn with
  | nil => simp [Omits, reached, kind?, node?_empty]
  | append_singleton history c ih =>
    rw [reached_concat, (enlists_perform (wellFormed_reached table history) hk c).omits, ih]
    constructor
    · rintro (⟨before, d, after, rfl, hd⟩ | hc)
      · exact ⟨before, d, after ++ [c], by simp, hd⟩
      · exact ⟨history, c, [], rfl, hc⟩
    · rintro ⟨before, d, after, he, hd⟩
      rcases List.eq_nil_or_concat after with rfl | ⟨after, last, rfl⟩
      · obtain ⟨rfl, hlast⟩ := List.append_inj' he rfl
        obtain rfl := List.singleton_inj.mp hlast
        exact .inr hd
      · have he' : history ++ [c] = (before ++ d :: after) ++ [last] := by simpa using he
        obtain ⟨rfl, -⟩ := List.append_inj' he' rfl
        exact .inl ⟨before, d, after, rfl, hd⟩

end Arena

end TensorGraph
