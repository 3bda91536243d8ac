import TensorGraph.Proofs.Pass.Fusion

/-! # Lowering of Unique

Whatever the lowering stages is lighter than the node it lowers, and its two results are of the
types of the outputs that they replace.
-/

namespace TensorGraph.UniqueLowering

open Relation Arena Staging

variable {c : Site} {p : Plan Body} {t elementType indexType : ElementType}

/-- Everything lighter than the root may be staged at the site. -/
def Admits (c : Site) : Prop := ∀ l : Kind, l.weight < Kind.unique.weight → c.kinds l

section Steps

variable (hc : Admits c)
include hc

theorem ensures_step {q : Primitive} {inputs : List Operand}
    (hq : q.kind.weight < Kind.unique.weight) (hx : ∀ x ∈ inputs, x.Above c) :
    Ensures c p (step c.graph q inputs) fun x _ => x.Above c :=
  (ensures_makeValue (hc q.kind hq) hx).mono fun _ _ hx => hx.1

theorem ensures_makeConstant {value : Tensor} :
    Ensures c p (make c.graph (Primitive.constant value) []) fun k q =>
      q.type? c.graph (.staged k 0) = some value.elementType := by
  refine (ensures_make (hc .constant (by decide)) fun _ hx => absurd hx List.not_mem_nil).mono ?_
  rintro k q ⟨⟨outs, htypes, hports⟩, -⟩
  obtain ⟨-, rfl⟩ := htypes.constant
  exact hports 0

theorem ensures_constant {value : Tensor} :
    Ensures c p (constant c.graph value) fun x q =>
      x.Above c ∧ q.type? c.graph x = some value.elementType := by
  refine .bind (.refl _) (ensures_makeConstant hc) ?_
  exact fun k _ _ hk => ensures_pure ⟨above_staged k 0, hk⟩

theorem ensures_lengthOf {x : Operand} (hx : x.Above c) :
    Ensures c p (lengthOf c.graph x) fun y _ => y.Above c := by
  refine .bind (.refl _) (ensures_step hc (by decide) (by simp [hx])) ?_
  rintro shape q - hshape
  exact ensures_step hc (by decide) (by simp [hshape])

theorem ensures_sorted {x count : Operand} (hx : x.Above c) (hcount : count.Above c) :
    Ensures c p (sorted c.graph x count) fun y _ => y.Above c :=
  ensures_step hc (by decide) (by simp [hx, hcount])

theorem ensures_runStarts {one zero x : Operand} (h₁ : one.Above c) (h₀ : zero.Above c)
    (hx : x.Above c) :
    Ensures c p (runStarts c.graph elementType one zero x) fun y _ => y.Above c := by
  refine .bind (.refl _) (ensures_constant hc) ?_
  rintro pad q - ⟨hpad, -⟩
  refine .bind (.refl _) (ensures_step hc (by decide) (by simp [hx, hpad])) ?_
  rintro left q - hleft
  refine .bind (.refl _) (ensures_step hc (by decide) (by simp [hx, hpad])) ?_
  rintro right q - hright
  refine .bind (.refl _) (ensures_step hc (by decide) (by simp [hleft, hright])) ?_
  rintro boundaries q - hboundaries
  refine .bind (.refl _) (ensures_step hc (by decide) (by simp [hboundaries])) ?_
  rintro inside q - hinside
  refine .bind (.refl _) (ensures_constant hc) ?_
  rintro first q - ⟨hfirst, -⟩
  refine .bind (.refl _) (ensures_step hc (by decide) (by simp [hfirst, hinside])) ?_
  rintro keep q - hkeep
  refine .bind (.refl _) (ensures_step hc (by decide) (by simp [hkeep, h₁, h₀])) ?_
  rintro mask q - hmask
  refine .bind (.refl _) (ensures_step hc (by decide) (by simp [hmask])) ?_
  rintro positions q - hpositions
  exact ensures_step hc (by decide) (by simp [hpositions])

theorem ensures_firstPositions {row distinct count one scalarOne : Operand} (hrow : row.Above c)
    (hdistinct : distinct.Above c) (hcount : count.Above c) (h₁ : one.Above c)
    (hs : scalarOne.Above c) :
    Ensures c p (firstPositions c.graph row distinct count one scalarOne) fun y _ =>
      y.Above c := by
  refine .bind (.refl _) (ensures_step hc (by decide) (by simp [hdistinct])) ?_
  rintro column q - hcolumn
  refine .bind (.refl _) (ensures_step hc (by decide) (by simp [hrow, hcolumn])) ?_
  rintro equal q - hequal
  refine .bind (.refl _) (ensures_step hc (by decide) (by simp [hcount, hs])) ?_
  rintro beyond q - hbeyond
  refine .bind (.refl _) (ensures_step hc (by decide) (by simp [hequal, hs, hbeyond])) ?_
  rintro weights q - hweights
  refine .bind (.refl _) (ensures_step hc (q := .range .i32) (by decide) (by simp [hs, hbeyond])) ?_
  rintro numbers q - hnumbers
  refine .bind (.refl _) (ensures_step hc (by decide) (by simp [hnumbers])) ?_
  rintro numbers q - hnumbers
  refine .bind (.refl _) (ensures_step hc (by decide) (by simp [hweights, hnumbers])) ?_
  rintro weighted q - hweighted
  refine .bind (.refl _) (ensures_step hc (by decide) (by simp [hweighted])) ?_
  rintro least q - hleast
  exact ensures_step hc (by decide) (by simp [hleast, h₁])

theorem ensures_places {row values count scalarOne : Operand} (hrow : row.Above c)
    (hvalues : values.Above c) (hcount : count.Above c) (hs : scalarOne.Above c) :
    Ensures c p (places c.graph indexType row values count scalarOne) fun k q =>
      q.type? c.graph (.staged k 0) = some indexType := by
  refine .bind (.refl _) (ensures_constant hc) ?_
  rintro one p₁ - ⟨h₁, htype⟩
  refine .bind (.refl _) (ensures_constant hc) ?_
  rintro zero q hq ⟨h₀, -⟩
  refine .bind hq (ensures_step hc (by decide) (by simp [hvalues])) ?_
  rintro column q hq hcolumn
  refine .bind hq (ensures_step hc (by decide) (by simp [hcolumn, hrow])) ?_
  rintro equal q hq hequal
  refine .bind hq (ensures_step hc (by decide) (by simp [hcount, hs])) ?_
  rintro beyond q hq hbeyond
  refine .bind hq (ensures_step hc (by decide) (by simp [hequal, h₁, h₀])) ?_
  rintro hits q hq hhits
  refine .bind hq (ensures_step hc (q := .range indexType)
    (by decide : Kind.range.weight < Kind.unique.weight) (by simp [hs, hbeyond])) ?_
  rintro numbers q hq hnumbers
  refine .bind hq (ensures_step hc (by decide) (by simp [hnumbers])) ?_
  rintro numbers q hq hnumbers
  refine .bind hq (ensures_step hc (by decide) (by simp [hhits, hnumbers])) ?_
  rintro weighted q hq hweighted
  refine .bind hq (ensures_step hc (by decide) (by simp [hweighted])) ?_
  rintro greatest q hq hgreatest
  refine (ensures_make (hc .subtract (by decide)) (by simp [hgreatest, h₁])).grown.mono ?_
  rintro k r ⟨hr, ⟨outs, htypes, hports⟩, -⟩
  obtain ⟨u, hins, rfl⟩ := htypes.arithmetic (List.mem_cons_of_mem _ List.mem_cons_self)
  obtain rfl : indexType = u := Option.some.inj
    (((hq.trans hr).type? htype).symm.trans (List.cons.inj (List.cons.inj hins).2).1)
  exact hports 0

theorem ensures_lower {flat : Operand} (hflat : flat.Above c)
    (ht : p.type? c.graph flat = some t) :
    Ensures c p (lower c.graph elementType indexType flat) fun r q =>
      q.type? c.graph (.staged r.1 0) = some t ∧
        q.type? c.graph (.staged r.2 0) = some indexType := by
  refine .bind (.refl p) (ensures_constant hc) ?_
  rintro one q hq ⟨h₁, -⟩
  refine .bind hq (ensures_constant hc) ?_
  rintro zero q hq ⟨h₀, -⟩
  refine .bind hq (ensures_constant hc) ?_
  rintro scalarOne q hq ⟨hs, -⟩
  refine .bind hq (ensures_lengthOf hc hflat) ?_
  rintro count q hq hcount
  refine .bind hq (ensures_sorted hc hflat hcount) ?_
  rintro ascending q hq hascending
  refine .bind hq (ensures_runStarts hc h₁ h₀ hascending) ?_
  rintro starts q hq hstarts
  refine .bind hq (ensures_step hc (by decide) (by simp [hascending, hstarts])) ?_
  rintro distinct q hq hdistinct
  refine .bind hq (ensures_step hc (by decide) (by simp [hflat])) ?_
  rintro row q hq hrow
  refine .bind hq (ensures_firstPositions hc hrow hdistinct hcount h₁ hs) ?_
  rintro positions q hq hpositions
  refine .bind hq (ensures_lengthOf hc hpositions) ?_
  rintro distinctCount q hq hdistinctCount
  refine .bind hq (ensures_sorted hc hpositions hdistinctCount) ?_
  rintro ordered q hq hordered
  refine .bind hq (ensures_make (hc .gather (by decide)) (by simp [hflat, hordered])) ?_
  rintro values q hq ⟨⟨outs, htypes, hports⟩, -⟩
  obtain ⟨u, _, hins, rfl⟩ := htypes.gather
  obtain rfl : t = u := Option.some.inj ((hq.type? ht).symm.trans (List.cons.inj hins).1)
  refine .bind (.refl q) (ensures_places hc hrow (above_staged values 0) hdistinctCount hs) ?_
  rintro reverse r hr hreverse
  exact ensures_pure ⟨hr.type? (hports 0), hreverse⟩

theorem ensures_results {single : Bool} {flat : Nat}
    (ht : p.type? c.graph (.staged flat 0) = some t) :
    Ensures c p (results c.graph elementType indexType single flat) fun r q =>
      q.type? c.graph (.staged r.1 0) = some t ∧
        q.type? c.graph (.staged r.2 0) = some indexType := by
  cases single with
  | false => exact ensures_lower hc (above_staged flat 0) ht
  | true =>
    refine .bind (.refl p) (ensures_makeConstant hc) ?_
    rintro place q hq hplace
    exact ensures_pure ⟨hq.type? ht, hplace⟩

end Steps

/-! ### The pass -/

theorem parameters?_eq_some {op : Operation Body} {axis : Option Int}
    (h : parameters? op = some (indexType, axis)) : op = Primitive.unique indexType axis := by
  unfold parameters? at h
  split at h
  · obtain ⟨rfl, rfl⟩ := Prod.mk.inj (Option.some.inj h)
    rfl
  · cases h

theorem covers_of_outputs {q : Plan Body} {n : Node Body} {u : ElementType}
    (hn : c.graph.node? c.root = some n) (hspecs : n.specs.map Spec.elementType = [t, u, u, u])
    (h₁ : c.graph.uses (c.root.output 1) = []) (h₃ : c.graph.uses (c.root.output 3) = [])
    (h₀ : c.graph.uses (c.root.output 0) ≠ [] → ∃ r ∈ q.replacements, r.1 = c.root.output 0)
    (h₂ : c.graph.uses (c.root.output 2) ≠ [] → ∃ r ∈ q.replacements, r.1 = c.root.output 2) :
    q.Covers c := by
  intro port hport
  obtain ⟨u, hu⟩ := List.exists_mem_of_ne_nil _ hport
  obtain ⟨m, hm, hlt⟩ := hasOutput_iff.mp (hasOutput_of_mem_uses hu)
  obtain rfl := Option.some.inj (hn.symm.trans hm)
  have hlen : n.outputs.length = 4 := by simpa [Node.specs] using congrArg List.length hspecs
  have hcases : port = 0 ∨ port = 1 ∨ port = 2 ∨ port = 3 := by
    change port < n.outputs.length at hlt
    omega
  rcases hcases with rfl | rfl | rfl | rfl
  · exact h₀ hport
  · exact absurd h₁ hport
  · exact h₂ hport
  · exact absurd h₃ hport

theorem ensures_replaceUsed {port k : Nat} (hold : c.graph.type? (c.root.output port) = some t)
    (hnew : p.type? c.graph (.staged k 0) = some t) :
    Ensures c p (replaceUsed c.graph (c.root.output port) (.staged k 0)) fun _ q =>
      c.graph.uses (c.root.output port) ≠ [] →
        ∃ r ∈ q.replacements, r.1 = c.root.output port := by
  unfold replaceUsed
  split
  · refine (ensures_replace rfl (above_staged k 0) hold hnew).mono fun _ q hq _ => ?_
    exact ⟨_, hq.2, rfl⟩
  · rename_i h
    exact ensures_pure fun hne => absurd (by simpa using h) hne

theorem ensures_finish {n : Node Body} {name : String} {x : Nat × Nat}
    (hn : c.graph.node? c.root = some n)
    (hspecs : n.specs.map Spec.elementType = [t, indexType, indexType, indexType])
    (hunread : ((c.graph.uses (c.root.output 1)).isEmpty &&
      (c.graph.uses (c.root.output 3)).isEmpty) = true)
    (hprogress : ∀ q : Plan Body, q.Progresses c)
    (hvalues : p.type? c.graph (.staged x.1 0) = some t)
    (hreverse : p.type? c.graph (.staged x.2 0) = some indexType) :
    Ensures c p (finish c.graph c.root name x) fun _ q => q.Covers c ∧ q.Progresses c := by
  have htype (port : Nat) : c.graph.type? (c.root.output port) =
      [t, indexType, indexType, indexType][port]? := by
    rw [type?_of_node? hn, hspecs]
  rw [Bool.and_eq_true, List.isEmpty_iff, List.isEmpty_iff] at hunread
  refine .bind (.refl _) ensures_rename ?_
  rintro - q₁ hq₁ -
  refine .bind hq₁ ensures_rename ?_
  rintro - q₂ hq₂ -
  refine .bind hq₂ (ensures_inherit ?_) ?_
  · exact List.forall_mem_singleton.mpr (contains_of_node? hn)
  rintro - q₃ hq₃ -
  refine .bind hq₃ (ensures_replaceUsed (htype 0) (hq₃.type? hvalues)) ?_
  rintro - q₄ hq₄ hfirst
  refine (ensures_replaceUsed (htype 2) (hq₄.type? hreverse)).grown.mono ?_
  rintro - q ⟨hgrows, hlast⟩
  refine ⟨covers_of_outputs hn hspecs hunread.1 hunread.2 (fun hne => ?_) hlast, hprogress q⟩
  obtain ⟨r, hr, hroot⟩ := hfirst hne
  exact ⟨r, hgrows.replacements hr, hroot⟩

theorem reducing_pass : pass.Reducing where
  wraps := ⟨by decide, trivial⟩
  advances g h root m plan hh hnode hm e := by
    obtain ⟨n, hn, hkind, -, rfl⟩ := Pattern.matchNode_leaf hm
    rw [← hnode] at hn
    have hk : n.kind = .unique := List.mem_singleton.mp hkind
    let c : Site := .lighter hh root .unique
    have hc : Admits c := fun _ hl => hl
    have hprogress (q : Plan Body) : q.Progresses c :=
      progresses_lighter hh (hk ▸ kind?_of_node? hn) (by decide)
    refine ⟨Match.mem_nodes (b := ⟨0, root.output 0, true⟩) List.mem_cons_self rfl, c, rfl, rfl,
      Plan.advances_of_toPlan ((rewrite_leaf hn).symm.trans e)
        (.bind (.refl _) ensures_ofOption ?_)⟩
    rintro ⟨indexType, axis⟩ q - ⟨hop, rfl⟩
    have htypes := hh.typed.node hn
    rw [parameters?_eq_some hop] at htypes
    obtain ⟨t, hins, hspecs⟩ := htypes.unique
    refine .bind (.refl _) ensures_ofOption ?_
    rintro input q - ⟨hinput, rfl⟩
    have hmem : input ∈ n.inputs := List.mem_of_mem_head? hinput
    have hin : h.type? input = some t := by
      have hmap := List.mem_map_of_mem (f := h.type?) hmem
      rw [hins] at hmap
      exact List.mem_singleton.mp hmap
    refine .bind (.refl _) ensures_ofOption ?_
    rintro spec q - ⟨-, rfl⟩
    refine .bind (.refl _) ensures_check ?_
    rintro - q - ⟨-, rfl⟩
    refine .bind (.refl _) ensures_check ?_
    rintro - q - ⟨hunread, rfl⟩
    refine .bind (.refl _) ensures_check ?_
    rintro - q - ⟨-, rfl⟩
    refine .bind (.refl _) (ensures_make (hc .reshape (by decide))
      (List.forall_mem_singleton.mpr (above_of_input hh hn hmem))) ?_
    rintro flat q - ⟨⟨outs, hflat, hports⟩, -⟩
    obtain ⟨u, hinflat, rfl⟩ := hflat.keep (by decide)
    obtain rfl : t = u := Option.some.inj (hin.symm.trans (List.cons.inj hinflat).1)
    refine .bind (.refl _) ensures_spec ?_
    rintro flatSpec q - ⟨-, rfl⟩
    refine .bind (.refl q) (ensures_results hc (hports 0)) ?_
    rintro x r - ⟨hvalues, hreverse⟩
    exact ensures_finish hn hspecs hunread hprogress hvalues hreverse

end TensorGraph.UniqueLowering
