import TensorGraph.Proofs.Rewrite.Rewiring

/-! # Access

Every step of a commit once more, as one that fails if a handle, a port or a staged node is not
there. On an accepted plan no step fails, and the checked commit is the commit.
-/

namespace TensorGraph

variable {β : Type}

theorem foldlM_eq_some {σ α : Type} {f? : σ → α → Option σ} {f : σ → α → σ} (P : σ → Prop)
    {l : List α} {s : σ} (hs : P s)
    (hf : ∀ s, ∀ x ∈ l, P s → f? s x = some (f s x) ∧ P (f s x)) :
    l.foldlM f? s = some (l.foldl f s) := by
  induction l generalizing s with
  | nil => rfl
  | cons x l ih =>
    obtain ⟨hx, hP⟩ := hf s x List.mem_cons_self hs
    rw [List.foldlM_cons, hx]
    exact ih hP fun s y hy => hf s y (List.mem_cons_of_mem _ hy)

def Operand.resolve? (inserted : List NodeId) : Operand → Option Value
  | .graph v => some v
  | .staged index port => inserted[index]?.map fun id => id.output port

namespace Arena

variable {a b : Arena β} {x id : NodeId} {n : Node β} {v w : Value} {u : Use}
variable {p : Plan β} {ids : List NodeId}

/-! ### Checked steps -/

def modifyNode? (a : Arena β) (id : NodeId) (f : Node β → Node β) : Option (Arena β) :=
  if a.contains id then some (a.modifyNode id.index f) else none

def modifyOutput? (a : Arena β) (v : Value) (f : Output → Output) : Option (Arena β) :=
  if a.hasOutput v then some (a.modifyOutput v f) else none

def addUse? (a : Arena β) (v : Value) (u : Use) : Option (Arena β) :=
  a.modifyOutput? v fun o => { o with uses := o.uses ++ [u] }

def removeUse? (a : Arena β) (v : Value) (u : Use) : Option (Arena β) :=
  a.modifyOutput? v fun o => { o with uses := o.uses.filter (· ≠ u) }

def readInstead? (a : Arena β) (u : Use) (v : Value) : Option (Arena β) :=
  if (a.producer? u).isSome then some (a.readInstead u v) else none

/-- Taking the next vacant slot fails if it does not exist or is not vacant. -/
def allocate? (a : Arena β) (n : Node β) : Option (Arena β × NodeId) :=
  if a.free.head?.all fun i => a.slots[i]?.any fun s => s.node.isNone then some (a.allocate n)
  else none

def wire? (a : Arena β) (id : NodeId) (inputs : List Value) : Option (Arena β) := do
  let a ← inputs.zipIdx.foldlM (fun a (v, port) => a.addUse? v (id.input port)) a
  return (← a.modifyNode? id fun n => { n with inputs }).bump

def repoint? (a : Arena β) (old new : Value) : Option (Arena β) := do
  let uses := a.uses old
  let a ← a.modifyOutput? old fun o => { o with uses := [] }
  let a ← uses.foldlM (fun a u => a.readInstead? u new) a
  return (← a.modifyOutput? new fun o => { o with uses := o.uses ++ uses }).bump

def insertStaged? (a : Arena β) (inherited : Annotations) :
    List (StagedNode β) → Option (Arena β × List NodeId)
  | [] => some (a, [])
  | n :: rest => do
    let (a, id) ← a.allocate? (n.fresh inherited)
    let (a, ids) ← a.insertStaged? inherited rest
    return (a, id :: ids)

def nameIfEmpty? (a : Arena β) (id : NodeId) (name : String) : Option (Arena β) :=
  if a.contains id then some (a.nameIfEmpty id name) else none

def inheritName? (before a : Arena β) (inserted : List NodeId) (v : Value) (x : Operand) :
    Option (Arena β) :=
  match x, before.node? v.node with
  | .staged _ _, some n => (x.resolve? inserted).bind fun w => a.nameIfEmpty? w.node n.name
  | _, _ => some a

def detach? (a : Arena β) (id : NodeId) (inputs : List Value) : Option (Arena β) :=
  inputs.zipIdx.foldlM (fun a (v, port) => a.removeUse? v (id.input port)) a

theorem detach?_eq_some {inputs : List Value} (e : a.detach? id inputs = some b) :
    b = a.detach id inputs := by
  rw [detach?] at e
  rw [detach]
  generalize inputs.zipIdx = l at e ⊢
  induction l generalizing a with
  | nil => exact (Option.some.inj e).symm
  | cons x l ih =>
    rw [List.foldlM_cons] at e
    obtain ⟨c, hc, he⟩ := Option.bind_eq_some_iff.mp e
    change a.removeUse? x.1 (id.input x.2) = some c at hc
    rw [removeUse?, modifyOutput?] at hc
    split at hc
    · obtain rfl := Option.some.inj hc
      exact ih he
    · cases hc

def sweep? (a : Arena β) : List NodeId → Option (Arena β × Nat)
  | [] => some (a, 0)
  | id :: work =>
    match h : a.dead? id with
    | none => sweep? a work
    | some n =>
      match hb : (a.vacate id.index).detach? id n.inputs with
      | none => none
      | some b =>
        have := occupied_vacate h
        have := occupied_detach (a.vacate id.index) id n.inputs
        have := detach?_eq_some hb
        (sweep? b ((n.inputs.map Value.node).reverse ++ work)).map fun done =>
          (done.1, done.2 + 1)
termination_by work => (a.occupied, work.length)
decreasing_by
  · exact Prod.Lex.right _ (by simp)
  · exact Prod.Lex.left _ _ (by subst b; omega)

def releaseAll? (a : Arena β) : List NodeId → Option (Arena β × Nat)
  | [] => some (a, 0)
  | id :: ids => do
    let (a, count) ← a.sweep? [id]
    let (a, rest) ← (if count = 0 then a else a.bump).releaseAll? ids
    return (a, count + rest)

def repointAll? (a : Arena β) (inserted : List NodeId) (rs : List (Value × Operand)) :
    Option (Arena β) :=
  rs.foldlM (fun a r => (r.2.resolve? inserted).bind fun w => a.repoint? r.1 w) a

def wireAll? (a : Arena β) (inserted : List NodeId) (zs : List (NodeId × StagedNode β)) :
    Option (Arena β) :=
  zs.foldlM (fun a z => (z.2.inputs.mapM (Operand.resolve? inserted)).bind fun inputs =>
    a.wire? z.1 inputs) a

def nameAll? (before a : Arena β) (inserted : List NodeId) (rs : List (Value × Operand)) :
    Option (Arena β) :=
  rs.foldlM (fun a r => inheritName? before a inserted r.1 r.2) a

/-- The commit of a plan in steps that fail on whatever is not there. -/
def checkedApply? (a : Arena β) (p : Plan β) : Option (Arena β × Commit) := do
  let s ← a.insertStaged? (a.mergedAnnotations p.sources) p.staged
  let b ← s.1.repointAll? s.2 p.replacements
  let b ← b.wireAll? s.2 (s.2.zip p.staged)
  let b ← nameAll? a b s.2 p.replacements
  let done ← b.releaseAll? (p.replacements.map (·.1.node) ++ s.2)
  return (done.1.bump, ⟨s.2, p.replacements.length, done.2⟩)

/-! ### No step fails -/

theorem modifyNode?_eq_some (h : a.contains id = true) (f : Node β → Node β) :
    a.modifyNode? id f = some (a.modifyNode id.index f) := if_pos h

theorem readInstead?_eq_some (h : (a.producer? u).isSome = true) (v : Value) :
    a.readInstead? u v = some (a.readInstead u v) := if_pos h

theorem modifyOutput?_eq_some (h : a.hasOutput v = true) (f : Output → Output) :
    a.modifyOutput? v f = some (a.modifyOutput v f) := if_pos h

theorem wire?_eq_some (h : a.contains id = true) {inputs : List Value}
    (hin : ∀ w ∈ inputs, a.hasOutput w = true) : a.wire? id inputs = some (a.wire id inputs) := by
  have hfold : inputs.zipIdx.foldlM (fun a (v, port) => a.addUse? v (id.input port)) a =
      some (a.attach id inputs) := by
    refine foldlM_eq_some (fun b => b.bare? = a.bare?) rfl fun b x hx hb => ?_
    have hv := hin x.1 (List.fst_mem_of_mem_zipIdx hx)
    rw [← hasOutput_congr hb] at hv
    exact ⟨modifyOutput?_eq_some hv _, (bare?_addUse _ _).trans hb⟩
  have hid : (a.attach id inputs).contains id = true := by
    rw [contains_congr (bare?_attach id inputs), h]
  rw [wire?, hfold, Option.bind_eq_bind, Option.bind_some, modifyNode?_eq_some hid]
  rfl

theorem repoint?_eq_some (hl : a.Linked) {old new : Value} (ho : a.hasOutput old = true)
    (hn : a.hasOutput new = true) : a.repoint? old new = some (a.repoint old new) := by
  have hbare := bare?_modifyUses (a := a) (fun _ => []) old
  have hfold : (a.uses old).foldlM (fun a u => a.readInstead? u new)
      (a.modifyOutput old fun o => { o with uses := [] }) =
        some ((a.uses old).foldl (fun a u => a.readInstead u new)
          (a.modifyOutput old fun o => { o with uses := [] })) := by
    refine foldlM_eq_some (fun b => ∀ u ∈ a.uses old, (b.producer? u).isSome = true)
      (fun u hu => ?_) fun b u hu hb => ⟨readInstead?_eq_some (hb u hu) new, fun w hw => ?_⟩
    · rw [producer?_congr hbare, hl.mem_uses_iff.mp hu]
      rfl
    · obtain ⟨v, hv⟩ := Option.isSome_iff_exists.mp (hb u hu)
      obtain ⟨v', hv'⟩ := Option.isSome_iff_exists.mp (hb w hw)
      obtain ⟨m, hm, -⟩ := producer?_eq_some_iff.mp hv
      obtain ⟨m', hm', hp⟩ := producer?_eq_some_iff.mp hv'
      rw [producer?, readInstead, node?_modifyNode_of_live hm]
      split
      · rename_i he
        rw [he, hm] at hm'
        obtain rfl := Option.some.inj hm'
        obtain ⟨hlt, -⟩ := List.getElem?_eq_some_iff.mp hp
        simp [hlt]
      · simp [hm', hp]
  have hnew : ((a.uses old).foldl (fun a u => a.readInstead u new)
      (a.modifyOutput old fun o => { o with uses := [] })).hasOutput new = true := by
    rw [hasOutput_foldl_readInstead, hasOutput_congr hbare, hn]
  simp only [repoint?, modifyOutput?_eq_some ho, Option.bind_eq_bind, Option.bind_some, hfold,
    modifyOutput?_eq_some hnew]
  rfl

theorem allocate?_eq_some (h : a.WellFormed) (n : Node β) :
    a.allocate? n = some (a.allocate n) := by
  rw [allocate?, if_pos]
  cases hf : a.free with
  | nil => rfl
  | cons i free =>
    obtain ⟨s, hs, hnone, -⟩ := h.free_vacant i (hf ▸ List.mem_cons_self)
    simp [hs, hnone]

theorem insertStaged?_eq_some (h : a.WellFormed) (inherited : Annotations)
    (staged : List (StagedNode β)) :
    a.insertStaged? inherited staged = some (a.insertStaged inherited staged) := by
  induction staged generalizing a with
  | nil => rfl
  | cons n staged ih =>
    have hn : (n.fresh inherited).Isolated := Node.isolated_fresh _ _ _ _
    rw [insertStaged?, allocate?_eq_some h, Option.bind_eq_bind, Option.bind_some]
    dsimp only
    rw [ih (h.allocate hn)]
    rfl

theorem detach?_eq_detach {inputs : List Value} (hin : ∀ w ∈ inputs, a.hasOutput w = true) :
    a.detach? id inputs = some (a.detach id inputs) := by
  refine foldlM_eq_some (fun b => b.bare? = a.bare?) rfl fun b x hx hb => ?_
  have hv := hin x.1 (List.fst_mem_of_mem_zipIdx hx)
  rw [← hasOutput_congr hb] at hv
  exact ⟨modifyOutput?_eq_some hv _, (bare?_removeUse _ _).trans hb⟩

theorem sweep?_eq_some (h : a.WellFormed) (work : List NodeId) :
    a.sweep? work = some (a.sweep work) := by
  fun_induction sweep a work with
  | case1 a => rw [sweep?]
  | case2 a id work hd ih =>
    rw [sweep?]
    split
    · exact ih h
    · rename_i hd'
      rw [hd] at hd'
      cases hd'
  | case3 a id work n hd _ _ b count hb ih =>
    have hdetach : (a.vacate id.index).detach? id n.inputs =
        some ((a.vacate id.index).detach id n.inputs) :=
      detach?_eq_detach fun w hw => hasOutput_vacate_of_mem h hd hw
    rw [sweep?]
    split
    · rename_i hd'
      rw [hd] at hd'
      cases hd'
    · rename_i m hm
      obtain rfl : n = m := Option.some.inj (hd.symm.trans hm)
      split
      · rename_i hnone
        rw [hdetach] at hnone
        cases hnone
      · rename_i c hc
        obtain rfl := Option.some.inj (hdetach.symm.trans hc)
        rw [ih (h.drop hd), hb]
        rfl

theorem releaseAll?_eq_some (h : a.WellFormed) (ids : List NodeId) :
    a.releaseAll? ids = some (a.releaseAll ids) := by
  induction ids generalizing a with
  | nil => rfl
  | cons id ids ih =>
    have hwf := (releases_release a id).wellFormed h
    have hrelease : (if (a.sweep [id]).2 = 0 then (a.sweep [id]).1 else (a.sweep [id]).1.bump) =
        (a.release id).1 := rfl
    simp only [releaseAll?, sweep?_eq_some h, Option.bind_eq_bind, Option.bind_some]
    rw [hrelease, ih hwf]
    rfl

theorem Inserted.resolve?_eq_some {inherited : Annotations}
    (h : a.Inserted b inherited p.staged ids) {x : Operand} (hx : (p.spec? a x).isSome = true) :
    x.resolve? ids = some (x.resolve ids) := by
  cases x with
  | graph v => rfl
  | staged index port =>
    obtain ⟨s, hs⟩ := Option.isSome_iff_exists.mp hx
    obtain ⟨n, hn, -⟩ := Option.bind_eq_some_iff.mp hs
    obtain ⟨id, hid⟩ := h.exists_id hn
    rw [resolve_staged hid, Operand.resolve?, hid]
    rfl

/-! ### The checked commit -/

section Steps

variable {inherited : Annotations}

theorem Inserted.repointAll?_eq_some (h : a.Inserted b inherited p.staged ids)
    (hp : p.Accepted a) :
    b.repointAll? ids p.replacements = some (b.repointAll (p.targets ids)) := by
  rw [repointAll, Plan.targets, List.foldl_map]
  refine foldlM_eq_some (fun c => c.Linked ∧ c.hasOutput = b.hasOutput)
    ⟨h.wellFormed.linked, rfl⟩ fun c r hr hc => ?_
  obtain ⟨hl, hout⟩ := hc
  obtain ⟨ho, hn, hne⟩ := h.repointable hp.checked _ (List.mem_map_of_mem hr)
  obtain ⟨-, old, new, -, hnew, -⟩ := hp.replacements r hr
  rw [← hout] at ho hn
  refine ⟨?_, hl.repoint ho hn hne, (hasOutput_repoint hl _ _).trans hout⟩
  rw [h.resolve?_eq_some (Option.isSome_of_eq_some hnew), Option.bind_some]
  exact repoint?_eq_some hl ho hn

theorem Inserted.mapM_resolve? (h : a.Inserted b inherited p.staged ids) (hp : p.Accepted a)
    {i : Nat} {n : StagedNode β} (hn : p.staged[i]? = some n) :
    n.inputs.mapM (Operand.resolve? ids) = some (n.inputs.map (Operand.resolve ids)) := by
  have hall : ∀ x ∈ n.inputs, x.resolve? ids = some (x.resolve ids) := by
    intro x hx
    have hav := hp.operands i n hn x hx
    cases x with
    | graph v => rfl
    | staged j port => exact h.resolve?_eq_some hav.2
  generalize n.inputs = l at hall
  induction l with
  | nil => rfl
  | cons x l ih =>
    rw [List.mapM_cons, hall x List.mem_cons_self,
      ih fun y hy => hall y (List.mem_cons_of_mem _ hy)]
    rfl

theorem wireAll?_eq_some {zs : List (NodeId × StagedNode β)}
    (hzs : ∀ z ∈ zs, z.2.inputs.mapM (Operand.resolve? ids) =
      some (z.2.inputs.map (Operand.resolve ids)))
    (h : a.Wirable (zs.map fun z => (z.1, z.2.inputs.map (Operand.resolve ids)))) :
    a.wireAll? ids zs =
      some (a.wireAll (zs.map fun z => (z.1, z.2.inputs.map (Operand.resolve ids)))) := by
  unfold wireAll?
  induction zs generalizing a with
  | nil => rfl
  | cons z zs ih =>
    obtain ⟨hc, hrest⟩ := h.wire
    have hwire := wire?_eq_some hc (h.present _ List.mem_cons_self)
    rw [List.foldlM_cons, hzs z List.mem_cons_self, Option.bind_some, hwire, Option.bind_eq_bind,
      Option.bind_some]
    exact ih (fun y hy => hzs y (List.mem_cons_of_mem _ hy)) hrest

theorem Inserted.wireAll?_eq_some (h : a.Inserted b inherited p.staged ids)
    (hp : p.Accepted a) : (b.repointAll (p.targets ids)).wireAll? ids (ids.zip p.staged) =
      some (b.wired p ids) := by
  refine Arena.wireAll?_eq_some (fun z hz => ?_) (h.wirable hp.checked)
  obtain ⟨i, hi⟩ := List.mem_iff_getElem?.mp hz
  exact h.mapM_resolve? hp (List.getElem?_zip_eq_some.mp hi).2

theorem contains_inheritName (before : Arena β) (v : Value) (x : Operand) :
    (inheritName before a ids v x).contains = a.contains := by
  cases x with
  | graph w => rfl
  | staged index port =>
    cases hn : before.node? v.node with
    | none => simp only [inheritName, hn]
    | some n => simp only [inheritName, hn, contains_nameIfEmpty]

theorem inheritName?_eq_some (before : Arena β) {x : Operand}
    (hres : x.resolve? ids = some (x.resolve ids))
    (hc : ∀ index port, x = .staged index port → a.contains (x.resolve ids).node = true) :
    inheritName? before a ids v x = some (inheritName before a ids v x) := by
  cases x with
  | graph w => rfl
  | staged index port =>
    cases hn : before.node? v.node with
    | none => simp only [inheritName?, inheritName, hn]
    | some n =>
      have hid := hc index port rfl
      simp only [inheritName?, inheritName, hn, hres, Option.bind_some, nameIfEmpty?, hid, if_true]

theorem nameAll?_eq_some (before : Arena β) {rs : List (Value × Operand)}
    (h : ∀ r ∈ rs, r.2.resolve? ids = some (r.2.resolve ids) ∧
      ∀ index port, r.2 = .staged index port → a.contains (r.2.resolve ids).node = true) :
    nameAll? before a ids rs = some (nameAll before a ids rs) := by
  refine foldlM_eq_some (fun b => b.contains = a.contains) rfl fun b r hr hb => ?_
  obtain ⟨hres, hc⟩ := h r hr
  rw [← hb] at hc
  exact ⟨inheritName?_eq_some before hres hc, (contains_inheritName before _ _).trans hb⟩

theorem Inserted.nameAll?_eq_some (h : a.Inserted b inherited p.staged ids)
    (hp : p.Accepted a) : nameAll? a (b.wired p ids) ids p.replacements =
      some (nameAll a (b.wired p ids) ids p.replacements) := by
  refine Arena.nameAll?_eq_some a fun r hr => ?_
  obtain ⟨-, old, new, -, hnew, -⟩ := hp.replacements r hr
  refine ⟨h.resolve?_eq_some (Option.isSome_of_eq_some hnew), fun index port he => ?_⟩
  obtain ⟨v, x⟩ := r
  subst he
  exact (h.contains_resolve hp.checked hr).2

end Steps

/-- On an accepted plan no step of a commit misses a handle, a port or a staged node. -/
theorem checkedApply?_eq_some (ha : a.WellFormed) (hp : p.Accepted a) :
    a.checkedApply? p = some (a.apply p) := by
  have h := inserted_insertStaged ha (a.mergedAnnotations p.sources) p.staged
  simp only [checkedApply?, insertStaged?_eq_some ha, h.repointAll?_eq_some hp,
    h.wireAll?_eq_some hp, h.nameAll?_eq_some hp, releaseAll?_eq_some (h.rewired ha hp).wellFormed,
    Option.bind_eq_bind, Option.bind_some, apply_eq]
  rfl

end Arena

end TensorGraph
