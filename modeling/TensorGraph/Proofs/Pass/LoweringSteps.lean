import TensorGraph.Proofs.Pass.Lowering
import TensorGraph.Proofs.Pass.LoweringSources
import TensorGraph.Proofs.Rewrite.Reading

/-! # Steps of the lowering of Unique

The lowering as a straight line of operations on whatever operands stand for. If all of them give a
result, then what the pass stages in the place of the two outputs reads as the last results.
-/

namespace TensorGraph.UniqueLowering

/-! ### Without a graph -/

namespace Lowered

variable {D : Type} (run : Primitive → List D → Option (List D))

def step (p : Primitive) (ds : List D) : Option D := do (← run p ds).head?

def constant (t : Tensor) : Option D := step run (.constant t) []

def lengthOf (x : D) : Option D := do
  let shape ← step run (.shapeOf .i32) [x]
  step run (.squeeze []) [shape]

def sorted (x count : D) : Option D := step run (.topK 0 .smallest .i32) [x, count]

def runStarts (elementType : ElementType) (one zero sorted : D) : Option D := do
  let pad ← constant run (.splat elementType [1] 0)
  let left ← step run (.concat 0) [sorted, pad]
  let right ← step run (.concat 0) [pad, sorted]
  let boundaries ← step run .notEqual [left, right]
  let inside ← step run (.slice 1 (-1) 1 0) [boundaries]
  let first ← constant run (.splat .boolean [1] 1)
  let keep ← step run (.concat 0) [first, inside]
  let mask ← step run .select [keep, one, zero]
  let positions ← step run (.nonZero .i64) [mask]
  step run (.squeeze [0]) [positions]

def firstPositions (row distinct count one scalarOne : D) : Option D := do
  let column ← step run (.unsqueeze [1]) [distinct]
  let equal ← step run .equal [row, column]
  let beyond ← step run .add [count, scalarOne]
  let weights ← step run .select [equal, scalarOne, beyond]
  let numbers ← step run (.range .i32) [scalarOne, beyond, scalarOne]
  let numbers ← step run (.unsqueeze [0]) [numbers]
  let weighted ← step run .multiply [weights, numbers]
  let least ← step run (.reduceMin [1] false) [weighted]
  step run .subtract [least, one]

def places (indexType : ElementType) (row values count scalarOne : D) : Option D := do
  let one ← constant run (.splat indexType [1] 1)
  let zero ← constant run (.splat indexType [1] 0)
  let column ← step run (.unsqueeze [1]) [values]
  let equal ← step run .equal [column, row]
  let beyond ← step run .add [count, scalarOne]
  let hits ← step run .select [equal, one, zero]
  let numbers ← step run (.range indexType) [scalarOne, beyond, scalarOne]
  let numbers ← step run (.unsqueeze [1]) [numbers]
  let weighted ← step run .multiply [hits, numbers]
  let greatest ← step run (.reduceMax [0] false) [weighted]
  step run .subtract [greatest, one]

def lower (elementType indexType : ElementType) (flat : D) : Option (D × D) := do
  let one ← constant run (.splat .i32 [1] 1)
  let zero ← constant run (.splat .i32 [1] 0)
  let scalarOne ← constant run (.scalar .i32 1)
  let count ← lengthOf run flat
  let ascending ← sorted run flat count
  let starts ← runStarts run elementType one zero ascending
  let distinct ← step run (.gather 0) [ascending, starts]
  let row ← step run (.unsqueeze [0]) [flat]
  let positions ← firstPositions run row distinct count one scalarOne
  let distinctCount ← lengthOf run positions
  let ordered ← sorted run positions distinctCount
  let values ← step run (.gather 0) [flat, ordered]
  let reverse ← places run indexType row values distinctCount scalarOne
  return (values, reverse)

/-- The two results for an input that is known to have one element, or not known to. -/
def outputs (single : Bool) (elementType indexType : ElementType) (input : D) :
    Option (D × D) := do
  let flat ← step run (.reshape [-1] false) [input]
  if single then return (flat, ← constant run (.splat indexType [1] 0))
  else lower run elementType indexType flat

end Lowered

/-! ### What is staged -/

open Lowered (step constant)

variable {D : Type} {g h : Graph} {R : Reading g D} {Γ : Reading.Facts D}
variable {elementType indexType : ElementType} {d e dx dy : D} {x y : Operand}

theorem exists_outputs {p : Primitive} {ds : List D} {run : Primitive → List D → Option (List D)}
    (h : Lowered.step run p ds = some d) : ∃ rest, run p ds = some (d :: rest) := by
  obtain ⟨outs, hrun, hhead⟩ := Option.bind_eq_some_iff.mp h
  obtain ⟨rest, rfl⟩ := List.head?_eq_some_iff.mp hhead
  exact ⟨rest, hrun⟩

theorem stages_make {p : Primitive} (inputs : Reading.Facts D) (hin : inputs ⊆ Γ)
    (h : Lowered.step R.run p (inputs.map Prod.snd) = some d) :
    R.Stages Γ (Staging.make g p (inputs.map Prod.fst)) fun k => [(.staged k 0, d)] := by
  obtain ⟨rest, hrun⟩ := exists_outputs h
  exact Reading.stages_make inputs hin hrun

theorem stages_step {p : Primitive} (inputs : Reading.Facts D) (hin : inputs ⊆ Γ)
    (h : Lowered.step R.run p (inputs.map Prod.snd) = some d) :
    R.Stages Γ (UniqueLowering.step g p (inputs.map Prod.fst)) fun x => [(x, d)] := by
  obtain ⟨rest, hrun⟩ := exists_outputs h
  exact Reading.stages_makeValue inputs hin hrun

theorem stages_constant {t : Tensor} (h : Lowered.constant R.run t = some d) :
    R.Stages Γ (UniqueLowering.constant g t) fun x => [(x, d)] :=
  stages_step [] (List.nil_subset _) h

theorem stages_lengthOf (hx : (x, d) ∈ Γ) (h : Lowered.lengthOf R.run d = some e) :
    R.Stages Γ (lengthOf g x) fun y => [(y, e)] := by
  obtain ⟨shape, hshape, h⟩ := Option.bind_eq_some_iff.mp h
  refine .bind (stages_step [(x, d)] (by simp [hx]) hshape) fun y => ?_
  exact stages_step [(y, shape)] (by simp) h

theorem stages_sorted (hx : (x, dx) ∈ Γ) (hy : (y, dy) ∈ Γ)
    (h : Lowered.sorted R.run dx dy = some e) : R.Stages Γ (sorted g x y) fun z => [(z, e)] :=
  stages_step [(x, dx), (y, dy)] (by simp [hx, hy]) h

variable {flat row one zero scalarOne count sorted values distinct : Operand}
variable {df dr d₁ d₀ ds dc dsorted dv dd : D}

theorem stages_runStarts (h₁ : (one, d₁) ∈ Γ) (h₀ : (zero, d₀) ∈ Γ) (hs : (sorted, dsorted) ∈ Γ)
    (h : Lowered.runStarts R.run elementType d₁ d₀ dsorted = some e) :
    R.Stages Γ (runStarts g elementType one zero sorted) fun y => [(y, e)] := by
  simp only [Lowered.runStarts, Option.bind_eq_bind, Option.bind_eq_some_iff] at h
  obtain ⟨pad, hpad, left, hleft, right, hright, boundaries, hboundaries, inside, hinside, first,
    hfirst, keep, hkeep, mask, hmask, positions, hpositions, h⟩ := h
  refine .bind (stages_constant hpad) fun x₁ => ?_
  refine .bind (stages_step [(sorted, dsorted), (x₁, pad)] (by simp [hs]) hleft) fun x₂ => ?_
  refine .bind (stages_step [(x₁, pad), (sorted, dsorted)] (by simp [hs]) hright) fun x₃ => ?_
  refine .bind (stages_step [(x₂, left), (x₃, right)] (by simp) hboundaries) fun x₄ => ?_
  refine .bind (stages_step [(x₄, boundaries)] (by simp) hinside) fun x₅ => ?_
  refine .bind (stages_constant hfirst) fun x₆ => ?_
  refine .bind (stages_step [(x₆, first), (x₅, inside)] (by simp) hkeep) fun x₇ => ?_
  refine .bind (stages_step [(x₇, keep), (one, d₁), (zero, d₀)] (by simp [h₁, h₀]) hmask)
    fun x₈ => ?_
  refine .bind (stages_step [(x₈, mask)] (by simp) hpositions) fun x₉ => ?_
  exact stages_step [(x₉, positions)] (by simp) h

theorem stages_firstPositions (hr : (row, dr) ∈ Γ) (hd : (distinct, dd) ∈ Γ)
    (hc : (count, dc) ∈ Γ) (h₁ : (one, d₁) ∈ Γ) (hs : (scalarOne, ds) ∈ Γ)
    (h : Lowered.firstPositions R.run dr dd dc d₁ ds = some e) :
    R.Stages Γ (firstPositions g row distinct count one scalarOne) fun y => [(y, e)] := by
  simp only [Lowered.firstPositions, Option.bind_eq_bind, Option.bind_eq_some_iff] at h
  obtain ⟨column, hcolumn, equal, hequal, beyond, hbeyond, weights, hweights, numbers, hnumbers,
    numbers', hnumbers', weighted, hweighted, least, hleast, h⟩ := h
  refine .bind (stages_step [(distinct, dd)] (by simp [hd]) hcolumn) fun x₁ => ?_
  refine .bind (stages_step [(row, dr), (x₁, column)] (by simp [hr]) hequal) fun x₂ => ?_
  refine .bind (stages_step [(count, dc), (scalarOne, ds)] (by simp [hc, hs]) hbeyond)
    fun x₃ => ?_
  refine .bind (stages_step [(x₂, equal), (scalarOne, ds), (x₃, beyond)] (by simp [hs]) hweights)
    fun x₄ => ?_
  refine .bind (stages_step [(scalarOne, ds), (x₃, beyond), (scalarOne, ds)] (by simp [hs])
    hnumbers) fun x₅ => ?_
  refine .bind (stages_step [(x₅, numbers)] (by simp) hnumbers') fun x₆ => ?_
  refine .bind (stages_step [(x₄, weights), (x₆, numbers')] (by simp) hweighted) fun x₇ => ?_
  refine .bind (stages_step [(x₇, weighted)] (by simp) hleast) fun x₈ => ?_
  exact stages_step [(x₈, least), (one, d₁)] (by simp [h₁]) h

theorem stages_places (hr : (row, dr) ∈ Γ) (hv : (values, dv) ∈ Γ) (hc : (count, dc) ∈ Γ)
    (hs : (scalarOne, ds) ∈ Γ) (h : Lowered.places R.run indexType dr dv dc ds = some e) :
    R.Stages Γ (places g indexType row values count scalarOne) fun k => [(.staged k 0, e)] := by
  simp only [Lowered.places, Option.bind_eq_bind, Option.bind_eq_some_iff] at h
  obtain ⟨one, hone, zero, hzero, column, hcolumn, equal, hequal, beyond, hbeyond, hits, hhits,
    numbers, hnumbers, numbers', hnumbers', weighted, hweighted, greatest, hgreatest, h⟩ := h
  refine .bind (stages_constant hone) fun x₁ => ?_
  refine .bind (stages_constant hzero) fun x₂ => ?_
  refine .bind (stages_step [(values, dv)] (by simp [hv]) hcolumn) fun x₃ => ?_
  refine .bind (stages_step [(x₃, column), (row, dr)] (by simp [hr]) hequal) fun x₄ => ?_
  refine .bind (stages_step [(count, dc), (scalarOne, ds)] (by simp [hc, hs]) hbeyond)
    fun x₅ => ?_
  refine .bind (stages_step [(x₄, equal), (x₁, one), (x₂, zero)] (by simp) hhits) fun x₆ => ?_
  refine .bind (stages_step [(scalarOne, ds), (x₅, beyond), (scalarOne, ds)] (by simp [hs])
    hnumbers) fun x₇ => ?_
  refine .bind (stages_step [(x₇, numbers)] (by simp) hnumbers') fun x₈ => ?_
  refine .bind (stages_step [(x₆, hits), (x₈, numbers')] (by simp) hweighted) fun x₉ => ?_
  refine .bind (stages_step [(x₉, weighted)] (by simp) hgreatest) fun x₁₀ => ?_
  exact stages_make [(x₁₀, greatest), (x₁, one)] (by simp) h

theorem stages_lower (hf : (flat, df) ∈ Γ)
    (h : Lowered.lower R.run elementType indexType df = some (d, e)) :
    R.Stages Γ (lower g elementType indexType flat) fun r =>
      [(.staged r.1 0, d), (.staged r.2 0, e)] := by
  obtain ⟨one, hone, h⟩ := Option.bind_eq_some_iff.mp h
  refine .bind (stages_constant hone) fun x₁ => ?_
  obtain ⟨zero, hzero, h⟩ := Option.bind_eq_some_iff.mp h
  refine .bind (stages_constant hzero) fun x₂ => ?_
  obtain ⟨scalarOne, hscalarOne, h⟩ := Option.bind_eq_some_iff.mp h
  refine .bind (stages_constant hscalarOne) fun x₃ => ?_
  obtain ⟨count, hcount, h⟩ := Option.bind_eq_some_iff.mp h
  refine .bind (stages_lengthOf (by simp [hf]) hcount) fun x₄ => ?_
  obtain ⟨ascending, hascending, h⟩ := Option.bind_eq_some_iff.mp h
  refine .bind (stages_sorted (by simp [hf]) (by simp) hascending) fun x₅ => ?_
  obtain ⟨starts, hstarts, h⟩ := Option.bind_eq_some_iff.mp h
  refine .bind (stages_runStarts (by simp) (by simp) (by simp) hstarts) fun x₆ => ?_
  obtain ⟨distinct, hdistinct, h⟩ := Option.bind_eq_some_iff.mp h
  refine .bind (stages_step [(x₅, ascending), (x₆, starts)] (by simp) hdistinct) fun x₇ => ?_
  obtain ⟨row, hrow, h⟩ := Option.bind_eq_some_iff.mp h
  refine .bind (stages_step [(flat, df)] (by simp [hf]) hrow) fun x₈ => ?_
  obtain ⟨positions, hpositions, h⟩ := Option.bind_eq_some_iff.mp h
  refine .bind (stages_firstPositions (by simp) (by simp) (by simp) (by simp) (by simp)
    hpositions) fun x₉ => ?_
  obtain ⟨distinctCount, hdistinctCount, h⟩ := Option.bind_eq_some_iff.mp h
  refine .bind (stages_lengthOf (by simp) hdistinctCount) fun x₁₀ => ?_
  obtain ⟨ordered, hordered, h⟩ := Option.bind_eq_some_iff.mp h
  refine .bind (stages_sorted (by simp) (by simp) hordered) fun x₁₁ => ?_
  obtain ⟨values, hvalues, h⟩ := Option.bind_eq_some_iff.mp h
  refine .bind (stages_make [(flat, df), (x₁₁, ordered)] (by simp [hf]) hvalues) fun k => ?_
  obtain ⟨reverse, hreverse, h⟩ := Option.bind_eq_some_iff.mp h
  refine .bind (stages_places (by simp) (by simp) (by simp) (by simp) hreverse) fun l => ?_
  obtain ⟨rfl, rfl⟩ := Prod.mk.inj (Option.some.inj h)
  exact Reading.stages_pure (by simp)

/-! ### The pass -/

variable {p q : Plan Body} {root : NodeId} {m : Match} {name : String}

theorem content_finish {x : Nat × Nat} (e : finish g root name x q = .ok ((), p)) :
    p.content = q.content := by
  obtain ⟨q₁, q₂, h₁, h₂, rfl⟩ := finish_eq_ok e
  have hq₁ := Staging.renamed_of_eq_ok h₁
  have hq₂ := Staging.renamed_of_eq_ok h₂
  exact hq₂.content_eq.trans hq₁.content_eq

/-- A node that is lowered, and the spec of its flattened input. -/
structure Lowers (g : Graph) (root : NodeId) (n : Node Body) (v : Value)
    (indexType : ElementType) (axis : Option Int) (spec flat : Spec) : Prop where
  node?_eq : g.node? root = some n
  op_eq : n.op = .primitive (.unique indexType axis)
  head?_eq : n.inputs.head? = some v
  spec?_eq : g.spec? v = some spec
  isFlat : isFlat axis spec = true
  infer_eq : ∃ outputs, g.infer (Primitive.reshape [-1] false) [spec] = .ok (flat :: outputs)

/-- The plans that a rewrite goes through. What follows after the last of them stages nothing. -/
structure Steps (g : Graph) (root : NodeId) (v : Value) (indexType : ElementType) (spec flat : Spec)
    (p : Plan Body) where
  index : Nat
  outputs : Nat × Nat
  flattened : Plan Body
  lowered : Plan Body
  flatten : Staging.make g (Primitive.reshape [-1] false) [.graph v] .empty =
    .ok (index, flattened)
  lower : results g spec.elementType indexType (flat.shape.elementCount? = some 1) index flattened =
    .ok (outputs, lowered)
  content_eq : p.content = lowered.content
  replacements_eq : p.replacements = replaced g (root.output 0) (.staged outputs.1 0) ++
    replaced g (root.output 2) (.staged outputs.2 0)

theorem exists_steps (hnode : h.node? = g.node?) (hm : pass.pattern.matchNode g root = some m)
    (e : pass.rewrite h m = .ok p) : ∃ n v indexType axis spec flat,
      Lowers h root n v indexType axis spec flat ∧
      Nonempty (Steps h root v indexType spec flat p) := by
  obtain ⟨n, hn, -, -, rfl⟩ := Pattern.matchNode_leaf hm
  rw [← hnode] at hn
  obtain ⟨indexType, axis, v, spec, i, q, flat, x, q', hop, hhead, hspec, hflat, hmake, hflatSpec,
    hresults, hfinish⟩ := rewrite_eq_ok hn e
  have hlowers : Lowers h root n v indexType axis spec flat := by
    obtain ⟨specs, outputs, hspecs, hinfer, rfl, rfl⟩ :=
      Plan.make_eq_ok_iff.mp (Staging.make_eq_ok_iff.mp hmake)
    have hspecs := (mapM_eq_ok_iff fun _ _ => Plan.operandSpec_eq_ok_iff).mp hspecs
    obtain ⟨spec', rfl, hspec'⟩ := List.map_eq_singleton_iff.mp hspecs.symm
    obtain rfl := Option.some.inj (hspec.symm.trans hspec'.symm)
    obtain ⟨rest, rfl⟩ := List.head?_eq_some_iff.mp (List.head?_eq_getElem?.trans hflatSpec)
    exact ⟨hn, parameters?_eq_some hop, hhead, hspec, hflat, rest, hinfer⟩
  obtain ⟨hq, hext, -⟩ := Staging.sketches_make (A := fun _ => True) rfl
    (List.forall_mem_singleton.mpr (within_graph trivial)) (Plan.sketch_empty _) i _ hmake
  obtain ⟨hq', hext', -⟩ := sketches_results hq x q' hresults
  have hreplacements := (finished_of_eq_ok hq' hfinish).replacements
  rw [(hext.trans hext').replacements] at hreplacements
  exact ⟨n, v, indexType, axis, spec, flat, hlowers,
    ⟨⟨i, x, q, q', hmake, hresults, content_finish hfinish, hreplacements⟩⟩⟩

theorem stages_results {single : Bool} {k : Nat} (hf : (.staged k 0, df) ∈ Γ)
    (h : (if single then do return (df, ← Lowered.constant R.run (.splat indexType [1] 0))
      else Lowered.lower R.run elementType indexType df) = some (d, e)) :
    R.Stages Γ (results g elementType indexType single k) fun r =>
      [(.staged r.1 0, d), (.staged r.2 0, e)] := by
  cases single with
  | false => exact stages_lower hf h
  | true =>
    obtain ⟨z, hz, h⟩ := Option.bind_eq_some_iff.mp h
    obtain ⟨rfl, rfl⟩ := Prod.mk.inj (Option.some.inj h)
    exact (stages_make [] (List.nil_subset _) hz).bind fun l => Reading.stages_pure (by simp [hf])

theorem reads_pass (hnode : h.node? = g.node?) (hm : pass.pattern.matchNode g root = some m)
    (e : pass.rewrite h m = .ok p) : ∃ n v indexType axis spec flat x y,
      Lowers h root n v indexType axis spec flat ∧
      p.replacements = replaced h (root.output 0) x ++ replaced h (root.output 2) y ∧
      ∀ {D : Type} (R : Reading h D) (d a b : D), R.Reads .empty (.graph v) d →
        Lowered.outputs R.run (flat.shape.elementCount? = some 1) spec.elementType indexType d =
          some (a, b) → R.Reads p x a ∧ R.Reads p y b := by
  obtain ⟨n, v, indexType, axis, spec, flat, hlowers, ⟨steps⟩⟩ := exists_steps hnode hm e
  refine ⟨n, v, indexType, axis, spec, flat, _, _, hlowers, steps.replacements_eq, ?_⟩
  intro D R d a b hd hout
  obtain ⟨f, hf, hout⟩ := Option.bind_eq_some_iff.mp hout
  have hflattened := (stages_make [(.graph v, d)] (List.Subset.refl _) hf .empty _ _
    (List.forall_mem_singleton.mpr hd) steps.flatten).1
  have hlowered := (stages_results (by simp) hout _ _ _ hflattened steps.lower).1
  have hgrown : steps.lowered.content <+: p.content := steps.content_eq ▸ List.prefix_rfl
  have hlast := hlowered.grow hgrown
  exact ⟨hlast (.staged steps.outputs.1 0, a) (by simp),
    hlast (.staged steps.outputs.2 0, b) (by simp)⟩

end TensorGraph.UniqueLowering
