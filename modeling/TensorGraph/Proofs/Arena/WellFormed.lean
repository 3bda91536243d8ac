import Mathlib.Data.Finset.Card
import Mathlib.Logic.Relation
import TensorGraph.Proofs.Arena.Lookup

/-! # Well-formed arenas

An arena is well formed if its two records of every edge agree, no node depends on itself, the
anchors are there, and the bookkeeping of slots is right. A finite acyclic arena can be ranked:
every node lies above the producers of its inputs.
-/

namespace TensorGraph

variable {β : Type}

def Node.bare (n : Node β) : Node β := { n with outputs := n.outputs.map fun o => ⟨o.spec, []⟩ }

namespace Arena

variable {a b : Arena β} {x y id : NodeId} {n : Node β} {v w : Value} {u : Use}

/-- Everything that is said of a node but by what it is read. -/
def bare? (a : Arena β) (id : NodeId) : Option (Node β) := (a.node? id).map Node.bare

/-- An input reads a value exactly if the value lists it, and then it lists it once. -/
def Linked (a : Arena β) : Prop :=
  ∀ v u, (a.uses v).count u = if a.producer? u = some v then 1 else 0

def Reads (a : Arena β) (x y : NodeId) : Prop := y ∈ a.producers x

def Acyclic (a : Arena β) : Prop := ∀ x, ¬ Relation.TransGen a.Reads x x

def Vacant (a : Arena β) (index : Nat) : Prop :=
  ∃ s, a.slots[index]? = some s ∧ s.node = none ∧ s.pins = 0

structure WellFormed (a : Arena β) : Prop where
  linked : a.Linked
  acyclic : a.Acyclic
  parameters : ∀ id ∈ a.parameters, a.kind? id = some .parameter
  results : ∀ id ∈ a.results, a.kind? id = some .result
  free_nodup : a.free.Nodup
  free_vacant : ∀ index ∈ a.free, a.Vacant index
  live : a.live = a.occupied

/-! ### What follows from the bare nodes -/

theorem producer?_eq_bare : a.producer? u = (a.bare? u.node).bind fun n => n.inputs[u.port]? := by
  rw [bare?, Option.bind_map]
  rfl

theorem contains_eq_bare : a.contains x = (a.bare? x).isSome := by simp [contains, bare?]

theorem contains_of_bare? (h : a.bare? x = some n) : a.contains x = true :=
  contains_eq_bare.trans (Option.isSome_of_eq_some h)

theorem kind?_eq_bare : a.kind? x = (a.bare? x).map Node.kind := by
  rw [bare?, Option.map_map]
  rfl

theorem producers_eq_bare :
    a.producers x = ((a.bare? x).map fun n => n.inputs.map Value.node).getD [] := by
  rw [bare?, Option.map_map]
  rfl

theorem spec?_eq_bare :
    a.spec? v = (a.bare? v.node).bind fun n => n.outputs[v.port]?.map Output.spec := by
  cases h : a.node? v.node with
  | none => simp [spec?, output?, bare?, h]
  | some n => simp [spec?, output?, bare?, h, Node.bare, Function.comp_def]

theorem hasOutput_eq_spec? : a.hasOutput v = (a.spec? v).isSome := by simp [hasOutput, spec?]

theorem hasOutput_of_spec? {s : Spec} (h : a.spec? v = some s) : a.hasOutput v = true :=
  hasOutput_eq_spec?.trans (Option.isSome_of_eq_some h)

theorem contains_of_spec? {s : Spec} (h : a.spec? v = some s) : a.contains v.node = true :=
  contains_of_hasOutput (hasOutput_of_spec? h)

section Bare

variable (h : b.bare? = a.bare?)
include h

theorem producer?_congr : b.producer? = a.producer? := by
  funext u
  simp only [producer?_eq_bare, h]

theorem contains_congr : b.contains = a.contains := by
  funext x
  simp only [contains_eq_bare, h]

theorem kind?_congr : b.kind? = a.kind? := by
  funext x
  simp only [kind?_eq_bare, h]

theorem producers_congr : b.producers = a.producers := by
  funext x
  simp only [producers_eq_bare, h]

theorem reads_congr : b.Reads = a.Reads := by
  funext x y
  rw [Reads, Reads, producers_congr h]

theorem spec?_congr : b.spec? = a.spec? := by
  funext v
  simp only [spec?_eq_bare, h]

theorem hasOutput_congr : b.hasOutput = a.hasOutput := by
  funext v
  simp only [hasOutput_eq_spec?, spec?_congr h]

end Bare

/-! ### Edges of a linked arena -/

namespace Linked

theorem mem_uses_iff (h : a.Linked) : u ∈ a.uses v ↔ a.producer? u = some v := by
  rw [← List.count_pos_iff, h v u]
  split <;> simp_all

theorem nodup_uses (h : a.Linked) (v : Value) : (a.uses v).Nodup := by
  refine List.nodup_iff_count.mpr fun u => ?_
  rw [h v u]
  split <;> omega

theorem hasOutput (h : a.Linked) (hu : a.producer? u = some v) : a.hasOutput v = true :=
  hasOutput_of_mem_uses (h.mem_uses_iff.mpr hu)

theorem contains_of_reads (h : a.Linked) (hr : a.Reads x y) : a.contains y = true := by
  obtain ⟨u, v, hu, -, rfl⟩ := mem_producers_iff.mp hr
  exact contains_of_hasOutput (h.hasOutput hu)

theorem hasOutput_of_input (h : a.Linked) (hn : a.node? x = some n) (hv : v ∈ n.inputs) :
    a.hasOutput v = true := by
  obtain ⟨port, hport⟩ := List.mem_iff_getElem?.mp hv
  have hproducer : a.producer? (x.input port) = some v :=
    producer?_eq_some_iff.mpr ⟨n, hn, hport⟩
  exact h.hasOutput hproducer

theorem contains_of_input (h : a.Linked) (hn : a.bare? x = some n) (hv : v ∈ n.inputs) :
    a.contains v.node = true := by
  refine h.contains_of_reads (x := x) ?_
  rw [Reads, producers_eq_bare, hn]
  exact List.mem_map_of_mem hv

end Linked

theorem contains_of_reads_left (h : a.Reads x y) : a.contains x = true := by
  obtain ⟨u, v, hu, rfl, -⟩ := mem_producers_iff.mp h
  obtain ⟨n, hn, -⟩ := producer?_eq_some_iff.mp hu
  exact contains_of_node? hn

theorem reads_iff_of_node? (hn : a.node? x = some n) :
    a.Reads x y ↔ ∃ v ∈ n.inputs, v.node = y := by
  rw [Reads, producers_of_node? hn, List.mem_map]

theorem reads_iff_of_pair {w : Value} (hn : a.node? x = some n) (hin : n.inputs = [v, w]) :
    a.Reads x y ↔ v.node = y ∨ w.node = y := by
  rw [reads_iff_of_node? hn, hin]
  simp

theorem reads_of_input (hn : a.node? x = some n) (hv : v ∈ n.inputs) : a.Reads x v.node :=
  (reads_iff_of_node? hn).mpr ⟨v, hv, rfl⟩

theorem reads_of_producer? (h : a.producer? u = some v) : a.Reads u.node v.node :=
  mem_producers_iff.mpr ⟨u, v, h, rfl, rfl⟩

/-! ### Ranks -/

def RankedBy (a : Arena β) (rank : NodeId → Nat) : Prop := ∀ x y, a.Reads x y → rank y < rank x

theorem RankedBy.transGen {rank : NodeId → Nat} (h : a.RankedBy rank)
    (hr : Relation.TransGen a.Reads x y) : rank y < rank x := by
  induction hr with
  | single hr => exact h _ _ hr
  | tail _ hr ih => exact (h _ _ hr).trans ih

theorem RankedBy.acyclic {rank : NodeId → Nat} (h : a.RankedBy rank) : a.Acyclic :=
  fun _ hr => (h.transGen hr).false

theorem Acyclic.mono (h : a.Acyclic) (hr : ∀ x y, b.Reads x y → a.Reads x y) : b.Acyclic :=
  fun x hx => h x (Relation.TransGen.mono hr x x hx)

/-- The nodes on which a node depends can serve as its rank: they are fewer than all. -/
theorem Acyclic.exists_rank (h : a.Acyclic) (hl : a.Linked) :
    ∃ rank, a.RankedBy rank ∧ ∀ x, a.contains x = true → rank x < a.occupied := by
  classical
  let below (x : NodeId) := a.nodeIds.toFinset.filter fun y => Relation.TransGen a.Reads x y
  have hlive {x : NodeId} (hx : a.contains x = true) : x ∈ a.nodeIds.toFinset :=
    List.mem_toFinset.mpr (mem_nodeIds_iff_contains.mpr hx)
  refine ⟨fun x => (below x).card, fun x y hr => Finset.card_lt_card ⟨fun z hz => ?_, fun hs => ?_⟩,
    fun x hx => ?_⟩
  · obtain ⟨hz, hyz⟩ := Finset.mem_filter.mp hz
    exact Finset.mem_filter.mpr ⟨hz, .head hr hyz⟩
  · have hy : y ∈ below x := Finset.mem_filter.mpr ⟨hlive (hl.contains_of_reads hr), .single hr⟩
    exact h y (Finset.mem_filter.mp (hs hy)).2
  · have hlt : (below x).card < a.nodeIds.toFinset.card := by
      refine Finset.card_lt_card ⟨Finset.filter_subset _ _, fun hs => ?_⟩
      exact h x (Finset.mem_filter.mp (hs (hlive hx))).2
    rwa [List.toFinset_card_of_nodup nodup_nodeIds, length_nodeIds] at hlt

/-- There are no nodes that are all read by one of them. -/
theorem WellFormed.not_of_read (ha : a.WellFormed) {S : NodeId → Prop}
    (h : ∀ x, S x → ∃ y, S y ∧ a.Reads y x) (x : NodeId) : ¬ S x := by
  obtain ⟨rank, hrank, hbound⟩ := ha.acyclic.exists_rank ha.linked
  induction hk : a.occupied - rank x using Nat.strong_induction_on generalizing x with
  | _ k ih =>
    intro hx
    obtain ⟨y, hy, hr⟩ := h x hx
    have hlt := hrank y x hr
    have hle := hbound y (contains_of_reads_left hr)
    exact ih _ (by omega) y rfl hy

theorem occupied_le_size : a.occupied ≤ a.slots.size := List.countP_le_length

/-! ### The empty arena -/

theorem node?_empty (table : CapabilityTable) : (empty table : Arena β).node? id = none := rfl

theorem wellFormed_empty (table : CapabilityTable) : (empty table : Arena β).WellFormed where
  linked v u := rfl
  acyclic x hr := by
    obtain ⟨y, hy, -⟩ := Relation.TransGen.head'_iff.mp hr
    exact absurd hy List.not_mem_nil
  parameters _ h := absurd h List.not_mem_nil
  results _ h := absurd h List.not_mem_nil
  free_nodup := .nil
  free_vacant _ h := absurd h List.not_mem_nil
  live := rfl

end Arena

end TensorGraph
