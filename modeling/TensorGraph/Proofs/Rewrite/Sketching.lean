import Mathlib.Logic.Relation
import TensorGraph.Proofs.Rewrite.Drafting

/-! # Sketches

What can be said of a plan in the making without any types: its staged nodes are primitives other
than anchors and have no annotations of their own, they read only certain values of the graph, and
what one of them reads it still reads when more is staged.
-/

namespace TensorGraph

open Relation

variable {A : Value → Prop} {g : Graph} {p q r : Plan Body} {x y : Operand} {i k port : Nat}
variable {n : StagedNode Body}

def Operand.Within (A : Value → Prop) : Operand → Prop
  | .graph v => A v
  | .staged _ _ => True

theorem within_graph {v : Value} (h : A v) : (Operand.graph v).Within A := h

namespace Plan

structure Sketch (A : Value → Prop) (p : Plan Body) : Prop where
  plain : ∀ n ∈ p.staged, n.annotations = .empty
  primitive : ∀ n ∈ p.staged, ∃ s : Primitive, n.op = .primitive s ∧ s.kind.isAnchor = false
  operands : ∀ n ∈ p.staged, ∀ x ∈ n.inputs, x.Within A

/-- The first operand is an output of a staged node that reads the second. -/
def Takes (p : Plan Body) (x y : Operand) : Prop :=
  ∃ i port, x = .staged i port ∧ y ∈ p.stagedInputs i

structure Extends (p q : Plan Body) : Prop where
  inputs : ∀ i, p.stagedInputs i ⊆ q.stagedInputs i
  replacements : q.replacements = p.replacements
  sources : q.sources = p.sources

theorem Extends.refl (p : Plan Body) : p.Extends p := ⟨fun _ _ h => h, rfl, rfl⟩

theorem Extends.trans (h : p.Extends q) (h' : q.Extends r) : p.Extends r :=
  ⟨fun i _ hx => h'.inputs i (h.inputs i hx), h'.replacements.trans h.replacements,
    h'.sources.trans h.sources⟩

theorem Extends.takes (h : p.Extends q) (hx : p.Takes x y) : q.Takes x y := by
  obtain ⟨i, port, rfl, hy⟩ := hx
  exact ⟨i, port, rfl, h.inputs i hy⟩

theorem Extends.reaches (h : p.Extends q) (hx : ReflTransGen p.Takes x y) :
    ReflTransGen q.Takes x y :=
  ReflTransGen.mono (fun _ _ => h.takes) x y hx

theorem sketch_empty (A : Value → Prop) : empty.Sketch A :=
  ⟨fun _ hn => absurd hn List.not_mem_nil, fun _ hn => absurd hn List.not_mem_nil,
    fun _ hn => absurd hn List.not_mem_nil⟩

theorem extends_stage (p : Plan Body) (n : StagedNode Body) : p.Extends (p.stage n) := by
  refine ⟨fun i x hx => ?_, rfl, rfl⟩
  unfold stagedInputs at hx ⊢
  cases hi : p.staged[i]? with
  | none => simp [hi] at hx
  | some m =>
    rw [stage, List.getElem?_append_left (List.getElem?_eq_some_iff.mp hi).1]
    exact hx

theorem Sketch.stage (hp : p.Sketch A) (hn : n.annotations = .empty)
    (hop : ∃ s : Primitive, n.op = .primitive s ∧ s.kind.isAnchor = false)
    (hx : ∀ x ∈ n.inputs, x.Within A) : (p.stage n).Sketch A := by
  have hall {P : StagedNode Body → Prop} (h : ∀ m ∈ p.staged, P m) (h' : P n) :
      ∀ m ∈ (p.stage n).staged, P m := by
    intro m hm
    rcases List.mem_append.mp hm with hm | hm
    · exact h m hm
    · exact List.mem_singleton.mp hm ▸ h'
  exact ⟨hall hp.plain hn, hall hp.primitive hop, hall hp.operands hx⟩

end Plan

/-! ### Steps of a sketch -/

namespace Staging

variable {α γ : Type} {s : Staging α} {f : α → Staging γ} {p₀ : Plan Body}
variable {Q : α → Plan Body → Prop} {R : γ → Plan Body → Prop}

/-- Unless it gives up, a step extends a sketch, such that the condition holds. -/
def Sketches (A : Value → Prop) (p : Plan Body) (s : Staging α) (Q : α → Plan Body → Prop) : Prop :=
  p.Sketch A → ∀ a q, s p = .ok (a, q) → q.Sketch A ∧ p.Extends q ∧ Q a q

theorem sketches_pure {a : α} (h : Q a p) : Sketches A p (pure a) Q := by
  intro hp b q e
  obtain ⟨rfl, rfl⟩ := Prod.mk.inj (Except.ok.inj e)
  exact ⟨hp, .refl _, h⟩

theorem Sketches.mono {Q' : α → Plan Body → Prop} (h : Sketches A p s Q)
    (hQ : ∀ a q, Q a q → Q' a q) : Sketches A p s Q' := by
  intro hp a q e
  obtain ⟨hq, hext, h⟩ := h hp a q e
  exact ⟨hq, hext, hQ a q h⟩

/-- The steps after the first are taken from any plan that extends an earlier one. -/
theorem Sketches.bind (hp₀ : p₀.Extends p) (hs : Sketches A p s Q)
    (hf : ∀ a q, p₀.Extends q → Q a q → Sketches A q (f a) R) : Sketches A p (s >>= f) R := by
  intro hp b r e
  obtain ⟨a, q, ha, hb⟩ := bind_ok_iff.mp e
  obtain ⟨hq, hext, hQ⟩ := hs hp a q ha
  obtain ⟨hr, hext', hR⟩ := hf a q (hp₀.trans hext) hQ hq b r hb
  exact ⟨hr, hext.trans hext', hR⟩

theorem sketches_ofAttempt {x : Attempt α} :
    Sketches A p (ofAttempt x) fun a q => x = .ok a ∧ q = p := by
  intro hp a q e
  obtain ⟨hx, rfl⟩ := ofAttempt_eq_ok_iff.mp e
  exact ⟨hp, .refl _, hx, rfl⟩

theorem sketches_ofOption {o : Option α} :
    Sketches A p (ofOption o) fun a q => o = some a ∧ q = p :=
  sketches_ofAttempt.mono fun _ _ h => ⟨Attempt.ofOption_eq_ok_iff.mp h.1, h.2⟩

theorem sketches_check {condition : Bool} :
    Sketches A p (check condition) fun _ q => condition = true ∧ q = p := by
  intro hp a q e
  obtain ⟨hcondition, rfl⟩ := check_eq_ok_iff.mp e
  exact ⟨hp, .refl _, hcondition, rfl⟩

/-- A staged node reads its inputs. -/
theorem sketches_make {s : Primitive} {inputs : List Operand} (hk : s.kind.isAnchor = false)
    (hx : ∀ x ∈ inputs, x.Within A) :
    Sketches A p (make g s inputs) fun k q => ∀ port, ∀ x ∈ inputs, q.Takes (.staged k port) x := by
  intro hp k q e
  obtain ⟨specs, outputs, -, -, rfl, rfl⟩ := Plan.make_eq_ok_iff.mp (make_eq_ok_iff.mp e)
  refine ⟨hp.stage (n := ⟨s, inputs, outputs, "", .empty⟩) rfl ⟨s, rfl, hk⟩ hx,
    Plan.extends_stage p _, ?_⟩
  intro port x hmem
  refine ⟨p.staged.length, port, rfl, ?_⟩
  rw [Plan.stagedInputs, List.getElem?_concat_length]
  exact hmem

theorem sketches_makeValue {s : Primitive} {inputs : List Operand} (hk : s.kind.isAnchor = false)
    (hx : ∀ x ∈ inputs, x.Within A) :
    Sketches A p (makeValue g s inputs) fun y q => y.Within A ∧ ∀ x ∈ inputs, q.Takes y x := by
  refine .bind (.refl _) (sketches_make hk hx) ?_
  rintro k q - htakes
  exact sketches_pure ⟨trivial, htakes 0⟩

theorem sketches_rename {name : String} : Sketches A p (rename k name) fun _ _ => True := by
  intro hp a q e
  have h := renamed_of_eq_ok e
  refine ⟨⟨fun m hm => ?_, fun m hm => ?_, fun m hm => ?_⟩,
    ⟨fun i x hx => ?_, h.replacements, h.sources⟩, trivial⟩
  · obtain ⟨n, hn, hm⟩ := h.exists_of_mem hm
    rw [hm]
    exact hp.plain n hn
  · obtain ⟨n, hn, hm⟩ := h.exists_of_mem hm
    rw [hm]
    exact hp.primitive n hn
  · obtain ⟨n, hn, hm⟩ := h.exists_of_mem hm
    rw [hm]
    exact hp.operands n hn
  · rwa [h.stagedInputs_eq]

end Staging

end TensorGraph
