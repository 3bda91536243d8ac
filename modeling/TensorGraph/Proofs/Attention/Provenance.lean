import TensorGraph.Proofs.Attention.Boundary
import TensorGraph.Proofs.Meaning.Attention
import TensorGraph.Proofs.Pass.Substitution

/-! # Annotations of fused islands

The subgraph of an island is annotated as the nodes of the island are together, and the copies in
its body are annotated as their originals are. Nothing else is released with an island: whatever
the copied nodes read from outside, the subgraph reads too.
-/

namespace TensorGraph

namespace Attention

open Arena

variable {g h : Graph} {c : Copying} {ins : List Value} {ids : List NodeId} {i : Island}
variable {b : Boundary} {p : Plan Body} {v : Value} {id x y : NodeId} {key : String}

/-- A body with annotated copies of nodes that read only each other and what enters. -/
structure Transcribes (g : Graph) (c : Copying) (ins : List Value) (ids : List NodeId) : Prop where
  wellFormed : c.body.WellFormed
  known : ∀ k ∈ c.known, k.1 ∈ ins ∨ k.1.node ∈ ids
  reads : ∀ x ∈ ids, ∀ y, g.Reads x y → y ∈ ids ∨ ∃ v ∈ ins, v.node = y
  carries : ∀ x ∈ ids, ∀ key, g.Carries x key → ∃ z, c.body.Carries z key

namespace Transcribes

variable {c' : Copying}

theorem start (table : CapabilityTable) : Transcribes g (.start table) [] [] where
  wellFormed := wellFormed_empty table
  known _ hk := absurd hk List.not_mem_nil
  reads _ hx := absurd hx List.not_mem_nil
  carries _ hx := absurd hx List.not_mem_nil

theorem carries_of_grown {op : Operation Body} {inputs : List Value} {d : Graph}
    (hgrown : c.body.Grown d id op inputs) (h : c.body.Carries x key) : d.Carries x key := by
  have h' := h
  obtain ⟨n, hn, -⟩ := h'
  exact (carries_congr (hgrown.part (contains_of_node? hn)).symm).mpr h

theorem addParameter (h : Transcribes g c ins ids) {position : Nat}
    (e : c.addParameter g v position = .ok c') : Transcribes g c' (ins ++ [v]) ids := by
  obtain ⟨d, id, name, spec, hd, rfl, hknown⟩ := Copies.addParameter_eq_ok e
  have hgrown := h.wellFormed.grown_addParameter name spec
  rw [hd] at hgrown
  constructor
  · exact hgrown.wellFormed
  · rw [hknown, List.forall_mem_cons]
    constructor
    · exact .inl (List.mem_append_right _ (List.mem_singleton_self v))
    · exact fun k hk => (h.known k hk).imp_left (List.mem_append_left _)
  · intro x hx y hread
    rcases h.reads x hx y hread with hy | ⟨w, hw, rfl⟩
    · exact .inl hy
    · exact .inr ⟨w, List.mem_append_left _ hw, rfl⟩
  · intro x hx key hkey
    obtain ⟨z, hz⟩ := h.carries x hx key hkey
    exact ⟨z, carries_of_grown hgrown hz⟩

theorem exists_known {vs ws : List Value} (e : vs.mapM c.value = .ok ws) (hv : v ∈ vs) :
    ∃ w, (v, w) ∈ c.known := by
  have h := Copies.forall₂_known e
  obtain ⟨k, hk, rfl⟩ := List.getElem_of_mem hv
  exact ⟨_, h.get hk (h.length_eq ▸ hk)⟩

theorem addCopy (h : Transcribes g c ins ids) (e : c.addCopy g id = .ok c') :
    Transcribes g c' ins (ids ++ [id]) := by
  obtain ⟨n, ws, d, copy, hn, hws, hd, hbody, hknown⟩ := Copies.addCopy_eq_ok e
  have hadded := h.wellFormed.grown_addVerbatim hd
  have hgrown := hadded.remark n.name n.annotations
  rw [← hbody] at hgrown
  constructor
  · exact hgrown.wellFormed
  · rw [hknown]
    intro k hk
    rcases List.mem_append.mp hk with hk | hk
    · obtain ⟨port, -, rfl⟩ := List.mem_map.mp hk
      exact .inr (List.mem_append_right _ (List.mem_singleton_self id))
    · exact (h.known k hk).imp_right (List.mem_append_left _)
  · intro x hx y hxy
    rcases List.mem_append.mp hx with hx | hx
    · rcases h.reads x hx y hxy with hy | hy
      · exact .inl (List.mem_append_left _ hy)
      · exact .inr hy
    · obtain rfl := List.mem_singleton.mp hx
      obtain ⟨w, hw, rfl⟩ := (reads_iff_of_node? hn).mp hxy
      obtain ⟨u, hu⟩ := exists_known hws hw
      rcases h.known _ hu with hw | hw
      · exact .inr ⟨w, hw, rfl⟩
      · exact .inl (List.mem_append_left _ hw)
  · intro x hx key hkey
    rcases List.mem_append.mp hx with hx | hx
    · obtain ⟨z, hz⟩ := h.carries x hx key hkey
      exact ⟨z, carries_of_grown hgrown hz⟩
    · obtain rfl := List.mem_singleton.mp hx
      obtain ⟨m, hm, hkey⟩ := hkey
      obtain rfl := Option.some.inj (hn.symm.trans hm)
      obtain ⟨k, hk⟩ := contains_iff.mp hadded.contains
      refine ⟨copy, { k with name := n.name, annotations := n.annotations }, ?_, hkey⟩
      rw [hbody, node?_modifyNode_of_live hk, if_pos rfl]

theorem addResult (h : Transcribes g c ins ids) (e : c.addResult v = .ok c') :
    Transcribes g c' ins ids := by
  obtain ⟨w, d, r, outputs, -, hd, rfl, hknown⟩ := Copies.addResult_eq_ok e
  have hgrown := h.wellFormed.grown_addVerbatim hd
  constructor
  · exact hgrown.wellFormed
  · rw [hknown]
    exact h.known
  · exact h.reads
  · intro x hx key hkey
    obtain ⟨z, hz⟩ := h.carries x hx key hkey
    exact ⟨z, carries_of_grown hgrown hz⟩

theorem of_body {body : Graph} (e : i.body g b = .ok body) :
    ∃ c, c.body = body ∧ Transcribes g c b.inputs (i.constants ++ i.nodes) :=
  i.body_induction (P := fun c ins ids _ => Transcribes g c ins ids) (start g.table)
    (fun h hc => h.addParameter hc) (fun _ h hc => h.addCopy hc) (fun h hc => h.addResult hc) e

end Transcribes

/-! ### What a fusion releases -/

theorem Island.mem_sources_iff (e : i.replacement g b = .ok p) : x ∈ p.sources ↔ x ∈ i.nodes := by
  obtain ⟨body, sink, given, specs, -, -, -, -, rfl⟩ := replacement_eq_ok_iff.mp e
  exact mem_sources_collapsed

theorem Island.mem_of_gone (hg : g.WellFormed) (hb : i.boundary g = .ok b)
    (e : i.replacement g b = .ok p) (hp : p.Accepted g)
    (hlive : ∀ y ∈ (g.rewire p).2, (g.apply p).1.contains y = true)
    (hx : g.contains x = true) (hgone : ¬ (g.apply p).1.contains x = true) :
    x ∈ i.constants ++ i.nodes := by
  have hr := rewired_rewire hg hp
  obtain ⟨body, n, hbody, hstaged, hop, hinputs, hreplacements⟩ := Island.replacement_eq_ok e
  obtain ⟨c, -, hc⟩ := Transcribes.of_body hbody
  obtain ⟨id, hid⟩ : ∃ id, (g.rewire p).2[0]? = some id := by
    have hlength := hr.length
    rw [hstaged] at hlength
    exact ⟨_, List.getElem?_eq_getElem (hlength ▸ Nat.one_pos)⟩
  have hcascade := cascade_apply hg hp
  have htargets : ∀ s ∈ p.replacements, (s.2.resolve (g.rewire p).2).node ∈ (g.rewire p).2 := by
    intro s hs
    rw [hreplacements] at hs
    obtain ⟨⟨v, port⟩, -, rfl⟩ := List.mem_map.mp hs
    rw [resolve_staged hid]
    exact List.mem_of_getElem? hid
  have hx' : (g.rewire p).1.contains x = true := hr.contains_iff.mpr (.inr hx)
  refine (hcascade.induction (P := fun x => x ∈ (g.rewire p).2 ∨ x ∈ i.constants ++ i.nodes)
    hr.wellFormed ?_ ?_ hx' hgone).resolve_left fun hmem => hr.fresh x hmem hx
  · intro x hmem _ _
    rcases List.mem_append.mp hmem with hmem | hmem
    · obtain ⟨s, hs, rfl⟩ := List.mem_map.mp hmem
      rw [hreplacements] at hs
      obtain ⟨⟨v, port⟩, hv, rfl⟩ := List.mem_map.mp hs
      have hout : v ∈ b.outputs := List.mem_of_getElem? (List.mem_zipIdx_iff_getElem?.mp hv)
      exact .inr (List.mem_append_right _ ((mem_outputs_iff hb).mp hout).1)
    · exact .inl hmem
  · intro x y hxy hy hx hmem
    by_cases hnew : x ∈ (g.rewire p).2
    · exact .inl hnew
    have hold : y ∉ (g.rewire p).2 := fun hmem => hy (hlive y hmem)
    rcases hc.reads y (hmem.resolve_left hold) x (hr.reads_old htargets hxy hold hnew) with
      hmem | ⟨v, hv, rfl⟩
    · exact .inr hmem
    · -- the subgraph reads this value
      obtain ⟨name, hnew⟩ := hr.new 0 n id (by rw [hstaged]; rfl) hid
      have hkept := hcascade.part.bare id (hlive id (List.mem_of_getElem? hid))
      have hgraph : Operand.graph v ∈ n.inputs := hinputs ▸ List.mem_map_of_mem hv
      exact absurd (hcascade.part.wellFormed.linked.contains_of_input (hkept.trans hnew)
        (List.mem_map_of_mem hgraph)) hx

/-- If the subgraph of an island stays, no annotation of a released node is lost. -/
theorem retains_fusePermitted {config : Config} {done : Commit} (hg : g.WellFormed)
    (e : fusePermitted config g i = .ok (some (h, done)))
    (hlive : ∃ y ∈ done.inserted, h.contains y = true) (hkey : g.Carries x key)
    (hgone : ¬ h.contains x = true) : h.Retains done.inserted key := by
  rcases fusePermitted_eq_ok e with he | ⟨b, p, hb, hplan, hp, he⟩
  · cases he
  obtain rfl : h = _ := congrArg Prod.fst (Option.some.inj he)
  have hdone : done.inserted = (g.rewire p).2 := by
    obtain rfl : done = _ := congrArg Prod.snd (Option.some.inj he)
    exact inserted_apply
  rw [hdone] at hlive ⊢
  have hr := rewired_rewire hg hp
  obtain ⟨body, n, hbody, hstaged, hop, -, -⟩ := Island.replacement_eq_ok hplan
  obtain ⟨c, rfl, hc⟩ := Transcribes.of_body hbody
  obtain ⟨id, hid, hlive⟩ := hlive
  have hids : (g.rewire p).2 = [id] := by
    obtain ⟨id', hids⟩ := List.length_eq_one_iff.mp (hr.length.trans (by rw [hstaged]; rfl))
    rw [hids] at hid ⊢
    rw [List.mem_singleton.mp hid]
  have hmem := Island.mem_of_gone hg hb hplan hp (fun y hy => by
    rw [hids] at hy
    rwa [List.mem_singleton.mp hy]) (contains_of_node? hkey.choose_spec.1) hgone
  obtain ⟨name, hnew⟩ := hr.new 0 n id (by rw [hstaged]; rfl) (by rw [hids]; rfl)
  obtain ⟨m, hm, he⟩ := Option.map_eq_some_iff.mp
    (((cascade_apply hg hp).part.bare id hlive).trans hnew)
  refine ⟨id, hid, m, hm, ?_⟩
  rcases List.mem_append.mp hmem with hmem | hmem
  · obtain ⟨z, hz⟩ := hc.carries x (List.mem_append_left _ hmem) key hkey
    exact .inr ⟨c.body, z, (congrArg Node.op he).trans hop, hz⟩
  · refine .inl ?_
    have hkeys : m.annotations = n.annotations.merge (g.mergedAnnotations p.sources) :=
      congrArg Node.annotations he
    rw [hkeys, Annotations.mem_keys_merge, mem_keys_mergedAnnotations]
    exact .inr ⟨x, (Island.mem_sources_iff hplan).mpr hmem, hkey⟩

end Attention

end TensorGraph
