import TensorGraph.Proofs.Pass.Rewrites
import TensorGraph.Proofs.Pass.Substitution
import TensorGraph.Proofs.Pattern.Inversion

/-! # Sources of the lowering of Unique

The lowering takes annotations from the node alone. Its first result always depends on the input of
the node. Its second result does so too, unless there is only one element, whose place is known.
-/

namespace TensorGraph.UniqueLowering

open Relation Arena Staging

variable {A : Value → Prop} {a g : Graph} {root : NodeId} {m : Match} {n : Node Body}
variable {p : Plan Body} {v : Value}
variable {elementType indexType : ElementType}

section Steps

variable {q : Primitive} {inputs : List Operand} {x y : Operand}

theorem sketches_step (hk : q.kind.isAnchor = false) (hx : ∀ x ∈ inputs, x.Within A) :
    Sketches A p (step g q inputs) fun x r => x.Within A ∧ ∀ y ∈ inputs, r.Takes x y :=
  sketches_makeValue hk hx

theorem sketches_step_of (hk : q.kind.isAnchor = false) (hx : ∀ x ∈ inputs, x.Within A)
    (hy : y ∈ inputs) {z : Operand} (hz : ReflTransGen p.Takes y z) :
    Sketches A p (step g q inputs) fun x r => x.Within A ∧ ReflTransGen r.Takes x z := by
  intro hp x r e
  obtain ⟨hr, hext, hx, htakes⟩ := sketches_step hk hx hp x r e
  exact ⟨hr, hext, hx, .head (htakes y hy) (hext.reaches hz)⟩

theorem sketches_constant {t : Tensor} :
    Sketches A p (constant g t) fun x _ => x.Within A :=
  (sketches_step rfl fun _ hx => absurd hx List.not_mem_nil).mono fun _ _ hx => hx.1

theorem sketches_lengthOf (hx : x.Within A) :
    Sketches A p (lengthOf g x) fun y _ => y.Within A := by
  refine .bind (.refl _) (sketches_step rfl (by simp [hx])) ?_
  rintro shape q - ⟨hshape, -⟩
  exact (sketches_step rfl (by simp [hshape])).mono fun _ _ hy => hy.1

theorem sketches_sorted {count : Operand} (hx : x.Within A) (hcount : count.Within A) :
    Sketches A p (sorted g x count) fun y _ => y.Within A :=
  (sketches_step rfl (by simp [hx, hcount])).mono fun _ _ hy => hy.1

theorem sketches_runStarts {one zero : Operand} (h₁ : one.Within A) (h₀ : zero.Within A)
    (hx : x.Within A) :
    Sketches A p (runStarts g elementType one zero x) fun y _ => y.Within A := by
  refine .bind (.refl _) sketches_constant ?_
  rintro pad q - hpad
  refine .bind (.refl _) (sketches_step rfl (by simp [hx, hpad])) ?_
  rintro left q - ⟨hleft, -⟩
  refine .bind (.refl _) (sketches_step rfl (by simp [hx, hpad])) ?_
  rintro right q - ⟨hright, -⟩
  refine .bind (.refl _) (sketches_step rfl (by simp [hleft, hright])) ?_
  rintro boundaries q - ⟨hboundaries, -⟩
  refine .bind (.refl _) (sketches_step rfl (by simp [hboundaries])) ?_
  rintro inside q - ⟨hinside, -⟩
  refine .bind (.refl _) sketches_constant ?_
  rintro first q - hfirst
  refine .bind (.refl _) (sketches_step rfl (by simp [hfirst, hinside])) ?_
  rintro keep q - ⟨hkeep, -⟩
  refine .bind (.refl _) (sketches_step rfl (by simp [hkeep, h₁, h₀])) ?_
  rintro mask q - ⟨hmask, -⟩
  refine .bind (.refl _) (sketches_step rfl (by simp [hmask])) ?_
  rintro positions q - ⟨hpositions, -⟩
  exact (sketches_step rfl (by simp [hpositions])).mono fun _ _ hy => hy.1

theorem sketches_firstPositions {row distinct count one scalarOne : Operand}
    (hrow : row.Within A) (hdistinct : distinct.Within A) (hcount : count.Within A)
    (h₁ : one.Within A) (hs : scalarOne.Within A) :
    Sketches A p (firstPositions g row distinct count one scalarOne) fun y _ => y.Within A := by
  refine .bind (.refl _) (sketches_step rfl (by simp [hdistinct])) ?_
  rintro column q - ⟨hcolumn, -⟩
  refine .bind (.refl _) (sketches_step rfl (by simp [hrow, hcolumn])) ?_
  rintro equal q - ⟨hequal, -⟩
  refine .bind (.refl _) (sketches_step rfl (by simp [hcount, hs])) ?_
  rintro beyond q - ⟨hbeyond, -⟩
  refine .bind (.refl _) (sketches_step rfl (by simp [hequal, hs, hbeyond])) ?_
  rintro weights q - ⟨hweights, -⟩
  refine .bind (.refl _) (sketches_step rfl (by simp [hs, hbeyond])) ?_
  rintro numbers q - ⟨hnumbers, -⟩
  refine .bind (.refl _) (sketches_step rfl (by simp [hnumbers])) ?_
  rintro numbers q - ⟨hnumbers, -⟩
  refine .bind (.refl _) (sketches_step rfl (by simp [hweights, hnumbers])) ?_
  rintro weighted q - ⟨hweighted, -⟩
  refine .bind (.refl _) (sketches_step rfl (by simp [hweighted])) ?_
  rintro least q - ⟨hleast, -⟩
  exact (sketches_step rfl (by simp [hleast, h₁])).mono fun _ _ hy => hy.1

theorem sketches_places {row values count scalarOne : Operand} (hrow : row.Within A)
    (hvalues : values.Within A) (hcount : count.Within A) (hs : scalarOne.Within A) :
    Sketches A p (places g indexType row values count scalarOne) fun k q =>
      ReflTransGen q.Takes (.staged k 0) values := by
  refine .bind (.refl _) sketches_constant ?_
  rintro one q - h₁
  refine .bind (.refl _) sketches_constant ?_
  rintro zero q - h₀
  refine .bind (.refl _) (sketches_step_of rfl (by simp [hvalues]) List.mem_cons_self .refl) ?_
  rintro column q - ⟨hcolumn, hreach⟩
  refine .bind (.refl _)
    (sketches_step_of rfl (by simp [hcolumn, hrow]) List.mem_cons_self hreach) ?_
  rintro equal p₁ - ⟨hequal, hreach⟩
  refine .bind (.refl _) (sketches_step rfl (by simp [hcount, hs])) ?_
  rintro beyond p₂ hext ⟨hbeyond, -⟩
  refine .bind (.refl _) (sketches_step_of rfl (by simp [hequal, h₁, h₀]) List.mem_cons_self
    (hext.reaches hreach)) ?_
  rintro hits p₃ - ⟨hhits, hreach⟩
  refine .bind (.refl p₃) (sketches_step rfl (by simp [hs, hbeyond])) ?_
  rintro numbers q hext ⟨hnumbers, -⟩
  refine .bind hext (sketches_step rfl (by simp [hnumbers])) ?_
  rintro numbers q hext ⟨hnumbers, -⟩
  refine .bind (.refl _) (sketches_step_of rfl (by simp [hhits, hnumbers]) List.mem_cons_self
    (hext.reaches hreach)) ?_
  rintro weighted q - ⟨hweighted, hreach⟩
  refine .bind (.refl _)
    (sketches_step_of rfl (by simp [hweighted]) List.mem_cons_self hreach) ?_
  rintro greatest q - ⟨hgreatest, hreach⟩
  intro hq k r e
  obtain ⟨hr, hext, htakes⟩ := sketches_make rfl (by simp [hgreatest, h₁]) hq k r e
  exact ⟨hr, hext, .head (htakes 0 greatest List.mem_cons_self) (hext.reaches hreach)⟩

theorem sketches_lower {flat : Operand} (hflat : flat.Within A) :
    Sketches A p (lower g elementType indexType flat) fun x q =>
      ReflTransGen q.Takes (.staged x.1 0) flat ∧ ReflTransGen q.Takes (.staged x.2 0) flat := by
  refine .bind (.refl _) sketches_constant ?_
  rintro one q - h₁
  refine .bind (.refl _) sketches_constant ?_
  rintro zero q - h₀
  refine .bind (.refl _) sketches_constant ?_
  rintro scalarOne q - hs
  refine .bind (.refl _) (sketches_lengthOf hflat) ?_
  rintro count q - hcount
  refine .bind (.refl _) (sketches_sorted hflat hcount) ?_
  rintro ascending q - hascending
  refine .bind (.refl _) (sketches_runStarts h₁ h₀ hascending) ?_
  rintro starts q - hstarts
  refine .bind (.refl _) (sketches_step rfl (by simp [hascending, hstarts])) ?_
  rintro distinct q - ⟨hdistinct, -⟩
  refine .bind (.refl _) (sketches_step rfl (by simp [hflat])) ?_
  rintro row q - ⟨hrow, -⟩
  refine .bind (.refl _) (sketches_firstPositions hrow hdistinct hcount h₁ hs) ?_
  rintro positions q - hpositions
  refine .bind (.refl _) (sketches_lengthOf hpositions) ?_
  rintro distinctCount q - hdistinctCount
  refine .bind (.refl _) (sketches_sorted hpositions hdistinctCount) ?_
  rintro ordered q - hordered
  refine .bind (.refl _) (sketches_make rfl (by simp [hflat, hordered])) ?_
  rintro values q - htakes
  have hvalues := htakes 0 flat List.mem_cons_self
  have hvalues' : (Operand.staged values 0).Within A := trivial
  refine .bind (.refl q) (sketches_places hrow hvalues' hdistinctCount hs) ?_
  rintro reverse r hext hreverse
  exact sketches_pure ⟨.single (hext.takes hvalues), hreverse.tail (hext.takes hvalues)⟩

/-- The place of a single element is a constant. -/
theorem sketches_results {single : Bool} {k : Nat} :
    Sketches A p (results g elementType indexType single k) fun x q =>
      ReflTransGen q.Takes (.staged x.1 0) (.staged k 0) ∧
        (single = false → ReflTransGen q.Takes (.staged x.2 0) (.staged k 0)) := by
  cases single with
  | false =>
    have hk : (Operand.staged k 0).Within A := trivial
    exact (sketches_lower hk).mono fun _ _ hx => hx.imp_right fun h _ => h
  | true =>
    refine .bind (.refl _) (sketches_make rfl fun _ hx => absurd hx List.not_mem_nil) ?_
    exact fun _ _ _ _ => sketches_pure ⟨.refl, nofun⟩

end Steps

/-! ### The pass -/

/-- Flattened, the value has one element. -/
def IsSingle (g : Graph) (v : Value) : Prop :=
  ∃ spec outputs flat, g.spec? v = some spec ∧
    g.infer (Primitive.reshape [-1] false) [spec] = .ok outputs ∧ outputs[0]? = some flat ∧
    flat.shape.elementCount? = some 1

def KeepsInput (g : Graph) (root : NodeId) : Prop :=
  ∃ v, (g.node? root).map Node.inputs = some [v] ∧
    (g.uses (root.output 0) ≠ [] ∨ ¬ IsSingle g v)

section Replacements

variable {o : Operand} {q r : Plan Body} {x : Nat × Nat} {name : String} {u : Unit}
variable {i : Nat} {flat : Spec}

def replaced (g : Graph) (v : Value) (o : Operand) : List (Value × Operand) :=
  if (!(g.uses v).isEmpty) = true then [(v, o)] else []

theorem mem_replaced {s : Value × Operand} :
    s ∈ replaced g v o ↔ g.uses v ≠ [] ∧ s = (v, o) := by
  unfold replaced
  split
  · rename_i h
    simpa using fun _ => by simpa using h
  · rename_i h
    simpa using fun hne => absurd (by simpa using h) hne

theorem replaceUsed_eq_ok_iff : replaceUsed g v o q = .ok (u, r) ↔
    r = { q with replacements := q.replacements ++ replaced g v o } := by
  unfold replaceUsed replaced
  split
  · exact replace_eq_ok_iff
  · rw [List.append_nil]
    constructor
    · intro e
      exact (Prod.mk.inj (Except.ok.inj e)).2.symm
    · rintro rfl
      rfl

/-- A plan in which both results are staged takes their sources and replacements from the root. -/
structure Finished (g : Graph) (root : NodeId) (x : Nat × Nat) (A : Value → Prop)
    (q p : Plan Body) : Prop where
  sketch : p.Sketch A
  inputs : ∀ i, q.stagedInputs i ⊆ p.stagedInputs i
  sources : ∀ s, s ∈ p.sources ↔ s ∈ q.sources ∨ s = root
  replacements : p.replacements = q.replacements ++
    (replaced g (root.output 0) (.staged x.1 0) ++ replaced g (root.output 2) (.staged x.2 0))

theorem finish_eq_ok (e : finish g root name x q = .ok (u, p)) :
    ∃ q₁ q₂, Staging.rename x.1 (name ++ ".0") q = .ok ((), q₁) ∧
      Staging.rename x.2 (name ++ ".2") q₁ = .ok ((), q₂) ∧
      p = { q₂.inherit [root] with
        replacements := q₂.replacements ++ (replaced g (root.output 0) (.staged x.1 0) ++
          replaced g (root.output 2) (.staged x.2 0)) } := by
  simp only [finish, bind_ok_iff, inherit_eq_ok_iff, replaceUsed_eq_ok_iff] at e
  obtain ⟨_, q₁, h₁, _, q₂, h₂, _, _, rfl, _, _, rfl, rfl⟩ := e
  refine ⟨q₁, q₂, h₁, h₂, ?_⟩
  rw [← List.append_assoc]
  rfl

theorem finished_of_eq_ok (hq : q.Sketch A) (e : finish g root name x q = .ok (u, p)) :
    Finished g root x A q p := by
  obtain ⟨q₁, q₂, h₁, h₂, rfl⟩ := finish_eq_ok e
  obtain ⟨hq₁, hext₁, -⟩ := Staging.sketches_rename hq _ q₁ h₁
  obtain ⟨hq₂, hext₂, -⟩ := Staging.sketches_rename hq₁ _ q₂ h₂
  have hext := hext₁.trans hext₂
  constructor
  · exact ⟨hq₂.plain, hq₂.primitive, hq₂.operands⟩
  · exact hext.inputs
  · intro s
    change s ∈ (q₂.inherit [root]).sources ↔ _
    rw [Plan.mem_inherit_iff, hext.sources, List.mem_singleton]
  · exact congrArg (· ++ _) hext.replacements

theorem isSingle_of_make
    (hmake : Staging.make g (Primitive.reshape [-1] false) [.graph v] .empty = .ok (i, q))
    (hflat : q.spec? g (.staged i 0) = some flat) (hone : flat.shape.elementCount? = some 1) :
    IsSingle g v := by
  obtain ⟨specs, outputs, hspecs, hinfer, rfl, rfl⟩ :=
    Plan.make_eq_ok_iff.mp (Staging.make_eq_ok_iff.mp hmake)
  have hspecs := (mapM_eq_ok_iff fun _ _ => Plan.operandSpec_eq_ok_iff).mp hspecs
  obtain ⟨spec, rfl, hspec⟩ := List.map_eq_singleton_iff.mp hspecs.symm
  exact ⟨spec, outputs, flat, hspec.symm, hinfer, hflat, hone⟩

end Replacements

/-! ### What is released -/

section Finished

variable {nodes : List NodeId} {x : Nat × Nat} {q : Plan Body}
variable (hext : Plan.empty.Extends q) (h : Finished a root x (· = v) q p)
include hext h

theorem mem_replacements_iff {s : Value × Operand} : s ∈ p.replacements ↔
    a.uses (root.output 0) ≠ [] ∧ s = (root.output 0, .staged x.1 0) ∨
      a.uses (root.output 2) ≠ [] ∧ s = (root.output 2, .staged x.2 0) := by
  rw [h.replacements, hext.replacements, ← mem_replaced, ← mem_replaced, ← List.mem_append]
  rfl

theorem nodup_replacements : (p.replacements.map Prod.fst).Nodup := by
  rw [h.replacements, hext.replacements, replaced, replaced]
  split <;> split <;> simp [Plan.empty, NodeId.output]

variable (ha : a.WellFormed) (hp : p.Accepted a) (hnodes : ∀ y, y ∈ nodes ↔ y = root)
variable (hread : a.Reads root v.node)
include ha hp hnodes hread

theorem substitution_of_finished : Substitution a root nodes (· = v) p := by
  refine ⟨ha, hp, ?_, h.sketch, ?_, ?_⟩
  · intro y hy
    rw [(hnodes y).mp hy]
  · rintro u rfl
    exact .single hread
  · intro s hs
    rcases (mem_replacements_iff hext h).mp hs with ⟨-, rfl⟩ | ⟨-, rfl⟩ <;> exact ⟨rfl, _, _, rfl⟩

theorem contains_input (hlive : ∃ y ∈ (a.rewire p).2, (residue a nodes p).contains y = true)
    (hvalues : ReflTransGen q.Takes (.staged x.1 0) (.graph v))
    (hplaces : a.uses (root.output 0) ≠ [] ∨
      ReflTransGen q.Takes (.staged x.2 0) (.graph v)) :
    (residue a nodes p).contains v.node = true := by
  have hs := substitution_of_finished hext h ha hp hnodes hread
  have htakes {y z : Operand} (hyz : ReflTransGen q.Takes y z) : ReflTransGen p.Takes y z := by
    refine ReflTransGen.mono (fun y z => ?_) y z hyz
    rintro ⟨i, port, rfl, hz⟩
    exact ⟨i, port, rfl, h.inputs i hz⟩
  obtain ⟨y, hy, hlive⟩ := hlive
  obtain ⟨s, hmem, hu⟩ := exists_used ha hp hs.sketch hy hlive
  have htarget {s : Value × Operand} (hmem : s ∈ p.replacements) (hu : a.uses s.1 ≠ []) :=
    hs.contains_target (nodup_replacements hext h) hmem hu
  by_cases hfirst : a.uses (root.output 0) = []
  · rcases (mem_replacements_iff hext h).mp hmem with ⟨hne, -⟩ | ⟨-, rfl⟩
    · exact absurd hfirst hne
    · exact hs.contains_of_takes (htakes (hplaces.resolve_left (not_not_intro hfirst)))
        (htarget hmem hu)
  · have hvalues' := (mem_replacements_iff hext h).mpr (.inl ⟨hfirst, rfl⟩)
    exact hs.contains_of_takes (htakes hvalues) (htarget hvalues' hfirst)

end Finished

theorem accounts_of_finished {nodes : List NodeId} {x : Nat × Nat} {q : Plan Body}
    (hext : Plan.empty.Extends q) (h : Finished a root x (· = v) q p) (ha : a.WellFormed)
    (hp : p.Accepted a) (hlive : ∃ y ∈ (a.rewire p).2, (residue a nodes p).contains y = true)
    (hnodes : ∀ y, y ∈ nodes ↔ y = root) (hn : a.node? root = some n)
    (hhead : n.inputs.head? = some v)
    (hvalues : ReflTransGen q.Takes (.staged x.1 0) (.graph v))
    (hplaces : ReflTransGen q.Takes (.staged x.2 0) (.graph v) ∨ IsSingle a v) :
    Accounts a root nodes p nodes fun y => TransGen a.Reads root y ∧ ¬ KeepsInput a root := by
  have hread : a.Reads root v.node := reads_of_input hn (List.mem_of_mem_head? hhead)
  have hs := substitution_of_finished hext h ha hp hnodes hread
  constructor
  · exact ⟨_, hs⟩
  · intro s
    rw [h.sources, hext.sources, hnodes]
    exact or_iff_right List.not_mem_nil
  · intro y hy hgone
    by_cases hkeeps : KeepsInput a root
    · obtain ⟨v', hinputs, hkeeps⟩ := hkeeps
      rw [hn, Option.map_some, Option.some.injEq] at hinputs
      obtain rfl : v = v' := by
        rw [hinputs] at hhead
        exact (Option.some.inj hhead).symm
      have hv := contains_input hext h ha hp hnodes hread hlive hvalues
        (hkeeps.imp_right hplaces.resolve_right)
      have hsplit := hs.gone_induction (K := (· = root)) rfl (fun y => (hnodes y).mp) ?_ ?_
        (hs.contains_old hy) hgone
      · rcases hsplit with hmem | rfl
        · exact absurd hy (hs.rewired.fresh y hmem)
        · exact .inl ((hnodes y).mpr rfl)
      · rintro z _ rfl hz
        obtain ⟨u, hu, rfl⟩ := (reads_iff_of_node? hn).mp hz
        rw [hinputs] at hu
        exact .inr (List.mem_singleton.mp hu ▸ hv)
      · rintro u rfl
        exact .inr hv
    · rcases hs.reaches_of_gone (hs.contains_old hy) hgone with hmem | hreach
      · exact absurd hy (hs.rewired.fresh y hmem)
      · rcases reflTransGen_iff_eq_or_transGen.mp hreach with rfl | hreach
        · exact .inl ((hnodes y).mpr rfl)
        · exact .inr ⟨hreach, hkeeps⟩

theorem accounts (ha : a.WellFormed) (hnode : a.node? = g.node?)
    (hm : pass.pattern.matchNode g root = some m)
    (e : pass.rewrite a m = .ok p) (hp : p.Accepted a)
    (hlive : ∃ y ∈ (a.rewire p).2, (residue a m.nodes p).contains y = true) :
    Accounts a root m.nodes p m.nodes fun y => TransGen a.Reads root y ∧ ¬ KeepsInput a root := by
  obtain ⟨n, hn, -, -, rfl⟩ := Pattern.matchNode_leaf hm
  rw [← hnode] at hn
  have hnodes (y : NodeId) :
      y ∈ (Match.mk (root.output 0) [⟨0, root.output 0, true⟩]).nodes ↔ y = root :=
    Match.mem_nodes_singleton
  obtain ⟨indexType, axis, v, spec, i, q, flat, x, q', -, hhead, -, -, hmake, hflat, hresults,
    hfinish⟩ := rewrite_eq_ok hn e
  obtain ⟨hq, hext, htakes⟩ := Staging.sketches_make (A := (· = v)) rfl
    (List.forall_mem_singleton.mpr (within_graph rfl)) (Plan.sketch_empty _) i _ hmake
  have hread := htakes 0 (.graph v) List.mem_cons_self
  obtain ⟨hq', hext', hvalues, hplaces⟩ := sketches_results hq x q' hresults
  refine accounts_of_finished (hext.trans hext') (finished_of_eq_ok hq' hfinish) ha hp hlive
    hnodes hn hhead (hvalues.tail (hext'.takes hread)) ?_
  by_cases hone : flat.shape.elementCount? = some 1
  · exact .inr (isSingle_of_make hmake hflat hone)
  · exact .inl ((hplaces (decide_eq_false hone)).tail (hext'.takes hread))

end TensorGraph.UniqueLowering
