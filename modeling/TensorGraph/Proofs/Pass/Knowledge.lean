import TensorGraph.Proofs.Pass.LoweringSpecs
import TensorGraph.Proofs.Pass.Provenance

/-! # What is known of values

A rewrite that puts another value in the place of an output should know at least as much of it.
All simplifications do, with one exception: a transpose has a rank even if its input has none, and
it is dropped without looking at that.
-/

namespace TensorGraph

open Arena

def Arena.isHeld (g : Graph) : Bool :=
  g.nodeIds.all fun x => (g.node? x).all fun n => n.specs.all fun s => s.shape.isHeld

theorem Arena.isHeld_of_spec? {g : Graph} {v : Value} {s : Spec} (hg : g.isHeld = true)
    (hs : g.spec? v = some s) : s.shape.isHeld = true := by
  obtain ⟨n, hn⟩ := contains_iff.mp (contains_of_spec? hs)
  have hall := List.all_eq_true.mp hg _ (mem_nodeIds_iff.mpr ⟨n, hn⟩)
  rw [hn, Option.all_some, List.all_eq_true] at hall
  rw [spec?_of_node? hn] at hs
  exact hall s (List.mem_of_getElem? hs)

/-- The rewrites by which a graph becomes simpler or more basic. -/
inductive Simplification where
  | identityTranspose
  | transposeChain
  | identityReshape
  | reshapeChain
  | folding
  | unique
deriving DecidableEq

namespace Simplification

variable {r : Simplification} {g : Graph} {u : PatternPass.Visit} {plan : Plan Body}
variable {new old : Spec}

def pass : Simplification → PatternPass
  | identityTranspose => Transpose.eliminateIdentity
  | transposeChain => Transpose.collapseChain
  | identityReshape => Reshape.eliminateIdentity
  | reshapeChain => Reshape.collapseChain
  | folding => ConstantFolding.pass
  | unique => UniqueLowering.pass

def transposes (r : Simplification) : Bool := r ∈ [identityTranspose, transposeChain]

/-- The types are the same, and what is known of the old spec is known of the new one. Only what
replaces a transpose may be of unknown rank, and then the rank is lost. -/
def Keeps (r : Simplification) (new old : Spec) : Prop :=
  new.elementType = old.elementType ∧
    (new.Refines old ↔ (r.transposes = true → new.shape ≠ .unranked))

theorem keeps_of_refines (hr : r.transposes = false) (h : new.Refines old) : r.Keeps new old :=
  ⟨h.elementType, fun _ ht => absurd ht (by simp [hr]), fun _ => h⟩

theorem keeps_of_replaces (hr : r.transposes = true) (h : Transpose.Replaces new old) :
    r.Keeps new old := by
  obtain ⟨hforgets, hold⟩ := h
  refine ⟨?_, (hforgets.refines_iff hold).trans ⟨fun h _ => h, fun h => h hr⟩⟩
  rcases hforgets with rfl | ⟨-, rank, rfl⟩ <;> rfl

/-- In a run over a graph with inferred specs, each output is replaced by a value of its type of
which at least as much is known, unless a transpose gives way to a value of unknown rank. -/
theorem keeps_knowledge (hg : g.WellFormed) (ht : g.table = .standard) (hi : g.Inferred)
    (hh : r = unique → g.isHeld = true) (hu : u ∈ r.pass.trace g)
    (e : r.pass.rewrite u.graph u.found = .ok plan) :
    plan.Exchanges u.graph r.Keeps := by
  have hadrift {d : Drift} (h : ∀ x n, g.bare? x = some n → ∀ v ∈ n.inputs, ∀ s,
      g.spec? v = some s → d.rel n.kind s s) : g.Adrift d := ⟨hg, ht, hi.drifted h⟩
  cases r with
  | identityTranspose =>
    have h := Transpose.drifts_eliminateIdentity.trace
      (hadrift fun _ _ _ _ _ _ _ => .inl rfl) hu e
    exact h.mono fun _ _ => keeps_of_replaces rfl
  | transposeChain =>
    have h := Transpose.drifts_collapseChain.trace (hadrift fun _ _ _ _ _ _ _ => .inl rfl) hu e
    exact h.mono fun _ _ => keeps_of_replaces rfl
  | identityReshape =>
    have h := Reshape.drifts_eliminateIdentity.trace (hadrift fun _ _ _ _ _ _ _ => rfl) hu e
    exact h.mono fun _ _ hsame => keeps_of_refines rfl (hsame ▸ .rfl)
  | reshapeChain =>
    have h := Reshape.drifts_collapseChain.trace (hadrift fun _ _ _ _ _ _ _ => rfl) hu e
    exact h.mono fun _ _ hsame => keeps_of_refines rfl (hsame ▸ .rfl)
  | folding =>
    have h := ConstantFolding.drifts_pass.trace (hadrift fun _ _ _ _ _ _ _ => .rfl) hu e
    exact h.mono fun _ _ => keeps_of_refines rfl
  | unique =>
    have h := UniqueLowering.drifts_pass.trace
      (hadrift fun _ _ _ _ _ _ hs => ⟨.rfl, fun _ => isHeld_of_spec? (hh rfl) hs⟩) hu e
    exact h.mono fun _ _ => keeps_of_refines rfl

open Pipeline (slotOf first reader f32)

/-- The distinct entries of a list of four and the places of all of them are results. -/
def distinct : Graph where
  slots := #[
    slotOf (Primitive.parameter (f32 [4])) [] [⟨f32 [4], [reader 1 0]⟩],
    slotOf (Primitive.unique .i64 (some 0)) [first 0] [⟨⟨.f32, .ofRank 1⟩, [reader 2 0]⟩,
      ⟨⟨.i64, .ofRank 1⟩, []⟩, ⟨⟨.i64, .ofSizes [4]⟩, [reader 3 0]⟩, ⟨⟨.i64, .ofRank 1⟩, []⟩],
    slotOf Primitive.result [first 1] [],
    slotOf Primitive.result [⟨⟨1, 0⟩, 2⟩] []]
  free := []
  parameters := [⟨0, 0⟩]
  results := [⟨2, 0⟩, ⟨3, 0⟩]
  live := 4
  version := 0
  table := .standard

theorem wellFormed_distinct : distinct.WellFormed :=
  Arena.wellFormed_of_validate (by cbv) (by decide) (by decide) (by decide)
    (fun _ h => absurd h List.not_mem_nil) (by cbv)

def distinctMatch : Match := ⟨first 1, [⟨0, first 1, true⟩]⟩

theorem mem_trace_distinct : ⟨⟨1, 0⟩, distinctMatch, distinct⟩ ∈
    unique.pass.trace distinct := by
  have horder : distinct.topologicalOrder = .ok [⟨0, 0⟩, ⟨1, 0⟩, ⟨2, 0⟩, ⟨3, 0⟩] := by cbv
  have h₀ : unique.pass.matchAt? distinct ⟨0, 0⟩ = none := by rfl
  have h₁ : unique.pass.matchAt? distinct ⟨1, 0⟩ = some distinctMatch := by rfl
  simp only [PatternPass.trace, horder, PatternPass.visits, h₀, h₁]
  exact List.mem_cons_self

/-- The lowering knows that there are four places. -/
theorem keeps_knowledge_distinct : distinct.Inferred ∧ distinct.isHeld = true ∧ ∃ plan,
    unique.pass.rewrite (distinct.pinned distinctMatch.nodes) distinctMatch = .ok plan ∧
      plan.replacements.length = 2 ∧
      plan.Exchanges (distinct.pinned distinctMatch.nodes) Spec.Refines := by
  have hi : distinct.Inferred := Arena.inferred_of_map (by rfl)
  obtain ⟨plan, e, hlen⟩ : ∃ plan,
      unique.pass.rewrite (distinct.pinned distinctMatch.nodes) distinctMatch = .ok plan ∧
        plan.replacements.length = 2 := ⟨_, rfl, rfl⟩
  have hkeeps := keeps_knowledge wellFormed_distinct rfl hi (fun _ => rfl) mem_trace_distinct e
  exact ⟨hi, rfl, plan, e, hlen, hkeeps.mono fun _ _ h => h.2.mpr fun ht => by cases ht⟩

/-- Weights of unknown rank go through a transpose without effect before they are multiplied. -/
def unranked : Graph where
  slots := #[
    slotOf (Primitive.parameter (f32 [2, 2])) [] [⟨f32 [2, 2], [reader 3 0]⟩],
    slotOf (Primitive.parameter ⟨.f32, .unranked⟩) [] [⟨⟨.f32, .unranked⟩, [reader 2 0]⟩],
    slotOf (Primitive.transpose [0, 1]) [first 1]
      [⟨⟨.f32, .ofRank 2⟩, [reader 3 1, reader 5 0]⟩],
    slotOf Primitive.fullyConnected [first 0, first 2]
      [⟨⟨.f32, .ranked [.known 2, .unknown]⟩, [reader 4 0]⟩],
    slotOf Primitive.result [first 3] [],
    slotOf Primitive.result [first 2] []]
  free := []
  parameters := [⟨0, 0⟩, ⟨1, 0⟩]
  results := [⟨4, 0⟩, ⟨5, 0⟩]
  live := 6
  version := 0
  table := .standard

def unrankedMatch : Match := ⟨first 2, [⟨1, first 2, true⟩, ⟨0, first 1, false⟩]⟩

def skip : Plan Body where
  staged := []
  replacements := [(first 2, .graph (first 1))]
  sources := []

/-- Without the transpose the weights have no rank any more, and the product is refused. -/
theorem knowledge_lost : unranked.WellFormed ∧ unranked.table = .standard ∧ unranked.Inferred ∧
    ⟨⟨2, 0⟩, unrankedMatch, unranked⟩ ∈
      identityTranspose.pass.trace unranked ∧
    identityTranspose.pass.rewrite (unranked.pinned unrankedMatch.nodes) unrankedMatch =
      .ok skip ∧
    (∃ h done, identityTranspose.pass.commitMatch (unranked.pinned unrankedMatch.nodes)
      unrankedMatch = (h, .ok (some done))) ∧
    ¬ skip.Exchanges (unranked.pinned unrankedMatch.nodes) Spec.Refines ∧
    (identityTranspose.pass.run unranked).1.revalidate.2 =
      .error (.shapeInference .fullyConnected .unrankedWeights) := by
  have e : identityTranspose.pass.rewrite (unranked.pinned unrankedMatch.nodes) unrankedMatch =
      .ok skip := by rfl
  refine ⟨Arena.wellFormed_of_validate (by cbv) (by decide) (by decide) (by decide)
    (fun _ h => absurd h List.not_mem_nil) (by cbv), rfl, Arena.inferred_of_map (by rfl), ?_, e,
    ?_, ?_, ?_⟩
  · have htrace : identityTranspose.pass.trace unranked =
        [⟨⟨2, 0⟩, unrankedMatch, unranked⟩] := by cbv
    exact htrace ▸ List.mem_cons_self
  · exact ⟨_, _, (PatternPass.commitMatch_eq_iff e).mpr
      ⟨rfl, Plan.check_eq_ok_iff.mp (by cbv), rfl⟩⟩
  · intro h
    obtain ⟨new, old, hnew, hold, hrefines⟩ := h (first 2, .graph (first 1)) List.mem_cons_self
    obtain rfl := Option.some.inj hnew
    obtain rfl := Option.some.inj hold
    cases hrefines.shape
  · cbv

end Simplification

end TensorGraph
