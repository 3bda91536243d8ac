import Mathlib.Data.Finset.Prod
import Mathlib.Data.Prod.Lex
import TensorGraph.Proofs.Pass.Unpinning
import TensorGraph.Proofs.Rewrite.Drafting

/-! # A measure of graphs

No count of nodes goes down with every rewrite, but four counts do lexicographically: nodes that
are lowered, sums, nodes that can be folded, and last the pairs of a change of layout and a node
that it depends on. Two such changes that become one keep the first three counts, and the new one
no longer depends on the inner one.
-/

namespace TensorGraph

open Relation

namespace Kind

/-- What a rewrite at a node of one weight stages has a lower weight, unless it joins two changes
of layout. -/
def weight : Kind → Nat
  | unique => 3
  | add => 2
  | subtract | multiply | reshape | transpose | squeeze | unsqueeze | convert => 1
  | _ => 0

def isLayout : Kind → Bool
  | reshape | transpose => true
  | _ => false

theorem weight_of_isLayout {k : Kind} (h : k.isLayout = true) : k.weight = 1 := by
  cases k <;> first | rfl | cases h

end Kind

/-- A count that stays or goes down, and an order that decides if it stays. -/
theorem lex_lt {α : Type} [Preorder α] {m n : Nat} {a b : α} (h : m ≤ n) (hab : a < b) :
    toLex (m, a) < toLex (n, b) :=
  Prod.Lex.toLex_strictMono (Prod.mk_lt_mk_of_le_of_lt h hab)

theorem lex_le {α : Type} [PartialOrder α] {m n : Nat} {a b : α} (h : m ≤ n) (hab : a ≤ b) :
    toLex (m, a) ≤ toLex (n, b) :=
  Prod.Lex.toLex_mono (Prod.mk_le_mk.mpr ⟨h, hab⟩)

namespace Arena

variable {β : Type} {a b : Arena β} {x y : NodeId} {w : Nat}

def ofWeight (a : Arena β) (w : Nat) : Finset NodeId :=
  a.nodeIds.toFinset.filter fun x => (a.kind? x).map Kind.weight = some w

open Classical in
/-- The changes of layout, each with every node that it depends on and with itself. -/
noncomputable def spans (a : Arena β) : Finset (NodeId × NodeId) :=
  (a.nodeIds.toFinset ×ˢ a.nodeIds.toFinset).filter fun s =>
    (∃ k, a.kind? s.1 = some k ∧ k.isLayout = true) ∧ ReflTransGen a.Reads s.1 s.2

noncomputable def measure (a : Arena β) : Nat ×ₗ Nat ×ₗ Nat ×ₗ Nat :=
  toLex ((a.ofWeight 3).card, toLex ((a.ofWeight 2).card,
    toLex ((a.ofWeight 1).card, a.spans.card)))

theorem contains_of_reflTransGen (ha : a.Linked) (hx : a.contains x = true)
    (h : ReflTransGen a.Reads x y) : a.contains y = true := by
  induction h with
  | refl => exact hx
  | tail _ hr _ => exact ha.contains_of_reads hr

theorem mem_ofWeight : x ∈ a.ofWeight w ↔ ∃ k, a.kind? x = some k ∧ k.weight = w := by
  rw [ofWeight, Finset.mem_filter, List.mem_toFinset, mem_nodeIds_iff_contains,
    Option.map_eq_some_iff]
  exact and_iff_right_of_imp fun ⟨_, hk, _⟩ => contains_of_kind? hk

theorem mem_spans (ha : a.Linked) {s : NodeId × NodeId} : s ∈ a.spans ↔
    (∃ k, a.kind? s.1 = some k ∧ k.isLayout = true) ∧ ReflTransGen a.Reads s.1 s.2 := by
  simp only [spans, Finset.mem_filter, Finset.mem_product, List.mem_toFinset,
    mem_nodeIds_iff_contains]
  refine and_iff_right_of_imp fun ⟨⟨_, hk, _⟩, hr⟩ => ?_
  exact ⟨contains_of_kind? hk, contains_of_reflTransGen ha (contains_of_kind? hk) hr⟩

/-! ### Parts -/

theorem Part.kind?_eq_some (h : a.Part b) {k : Kind} (hk : b.kind? x = some k) :
    a.kind? x = some k :=
  (h.kind? (contains_of_kind? hk)).symm.trans hk

theorem Part.ofWeight_subset (h : a.Part b) (w : Nat) : b.ofWeight w ⊆ a.ofWeight w := by
  intro x hx
  obtain ⟨k, hk, hw⟩ := mem_ofWeight.mp hx
  exact mem_ofWeight.mpr ⟨k, h.kind?_eq_some hk, hw⟩

theorem Part.spans_subset (h : a.Part b) (ha : a.Linked) : b.spans ⊆ a.spans := by
  intro s hs
  obtain ⟨⟨k, hk, hlayout⟩, hr⟩ := (mem_spans h.wellFormed.linked).mp hs
  exact (mem_spans ha).mpr ⟨⟨k, h.kind?_eq_some hk, hlayout⟩,
    ReflTransGen.mono (fun _ _ => h.reads) _ _ hr⟩

theorem Part.measure_le (h : a.Part b) (ha : a.Linked) : b.measure ≤ a.measure :=
  lex_le (Finset.card_le_card (h.ofWeight_subset 3)) <|
    lex_le (Finset.card_le_card (h.ofWeight_subset 2)) <|
      lex_le (Finset.card_le_card (h.ofWeight_subset 1)) <|
        Finset.card_le_card (h.spans_subset ha)

end Arena

end TensorGraph
