import TensorGraph.Graph.Body
import TensorGraph.Proofs.Arena.Validity

/-! # Element types

What inference under the standard table says of element types alone. An operation that keeps the
type of its first input keeps it whatever the shapes are.
-/

namespace TensorGraph

variable {s s' a b : Spec} {ins : List (Option ElementType)} {outs : List ElementType}

/-- Inputs that all have element types, and outputs that inference gives on such inputs. -/
def Operation.Types (op : Operation Body) (ins : List (Option ElementType))
    (outs : List ElementType) : Prop :=
  ∃ specs outputs, specs.map (fun s => some s.elementType) = ins ∧
    CapabilityTable.standard.infer (op.map Described.describe) specs = .ok outputs ∧
    outputs.map Spec.elementType = outs

theorem Operation.constant?_eq_some_iff {β : Type} {op : Operation β} {t : Tensor} :
    op.constant? = some t ↔ op = .primitive (.constant t) := by
  unfold constant?
  split
  · rw [Option.some.injEq, Operation.primitive.injEq, Primitive.constant.injEq]
  · rename_i h
    exact ⟨nofun, fun e => absurd e (h t)⟩

namespace Inferred

theorem require_eq_ok_iff {condition : Bool} {e : InferError} :
    require condition e = .ok () ↔ condition = true := by
  cases condition <;> simp [require]

theorem bind_singleton_eq_ok_iff {x : Inferred Spec} {outputs : List Spec} :
    (x >>= fun s => pure [s] : Inferred (List Spec)) = .ok outputs ↔
      ∃ s, x = .ok s ∧ outputs = [s] := by
  rw [bind_eq_ok_iff]
  refine exists_congr fun s => and_congr_right fun _ => ?_
  exact ⟨fun e => (Except.ok.inj e).symm, fun e => congrArg Except.ok e.symm⟩

theorem elementType_of_ok {t : ElementType} {shape : Shape}
    (e : (.ok ⟨t, shape⟩ : Inferred Spec) = .ok s) : s.elementType = t :=
  congrArg Spec.elementType (Except.ok.inj e).symm

theorem elementType_transpose {perm : List Nat} (e : transpose perm s = .ok s') :
    s'.elementType = s.elementType := by
  obtain ⟨_, -, e⟩ := bind_eq_ok_iff.mp e
  split at e
  · exact elementType_of_ok e
  · obtain ⟨_, -, e⟩ := bind_eq_ok_iff.mp e
    exact elementType_of_ok e

theorem elementType_reshape {target : List Int} {specialZero : Bool}
    (e : reshape target specialZero s = .ok s') : s'.elementType = s.elementType := by
  obtain ⟨_, -, e⟩ := bind_eq_ok_iff.mp e
  obtain ⟨_, -, e⟩ := bind_eq_ok_iff.mp e
  obtain ⟨extents, -, e⟩ := bind_eq_ok_iff.mp e
  obtain ⟨known, -, e⟩ := bind_eq_ok_iff.mp e
  split at e
  · split at e
    · obtain ⟨_, -, e⟩ := bind_eq_ok_iff.mp e
      exact elementType_of_ok e
    · obtain ⟨_, -, e⟩ := bind_eq_ok_iff.mp e
      exact elementType_of_ok e
  · exact elementType_of_ok e

theorem elementType_squeeze {axes : List Int} (e : squeeze axes s = .ok s') :
    s'.elementType = s.elementType := by
  unfold squeeze at e
  split at e
  · exact elementType_of_ok e
  · split at e
    · split at e <;> exact elementType_of_ok e
    · obtain ⟨_, -, e⟩ := bind_eq_ok_iff.mp e
      exact elementType_of_ok e

theorem elementType_unsqueeze {axes : List Int} (e : unsqueeze axes s = .ok s') :
    s'.elementType = s.elementType := by
  unfold unsqueeze at e
  split at e
  · exact elementType_of_ok e
  · obtain ⟨_, -, e⟩ := bind_eq_ok_iff.mp e
    obtain ⟨_, -, e⟩ := bind_eq_ok_iff.mp e
    exact elementType_of_ok e

theorem elementType_reduce {axes : List Int} {keepAxes : Bool}
    (e : reduce axes keepAxes s = .ok s') : s'.elementType = s.elementType := by
  unfold reduce at e
  split at e
  · exact elementType_of_ok e
  · obtain ⟨_, -, e⟩ := bind_eq_ok_iff.mp e
    split at e <;> exact elementType_of_ok e

theorem elementType_arithmetic (e : arithmetic a b = .ok s) :
    a.elementType = b.elementType ∧ s.elementType = a.elementType := by
  obtain ⟨shape, hpaired, e⟩ := bind_eq_ok_iff.mp e
  obtain ⟨⟨⟩, hsame, -⟩ := bind_eq_ok_iff.mp hpaired
  exact ⟨eq_of_beq (require_eq_ok_iff.mp hsame), elementType_of_ok e⟩

theorem elementType_gather {axis : Int} (e : gather axis a b = .ok s) :
    s.elementType = a.elementType := by
  obtain ⟨_, -, e⟩ := bind_eq_ok_iff.mp e
  split at e
  · obtain ⟨_, -, e⟩ := bind_eq_ok_iff.mp e
    exact elementType_of_ok e
  · exact elementType_of_ok e

theorem elementType_quantize {scale : Float} {output : ElementType}
    (e : quantize scale output s = .ok s') : s'.elementType.isQuantized = true := by
  obtain ⟨⟨⟩, -, e⟩ := bind_eq_ok_iff.mp e
  obtain ⟨⟨⟩, houtput, e⟩ := bind_eq_ok_iff.mp e
  obtain ⟨⟨⟩, -, e⟩ := bind_eq_ok_iff.mp e
  rw [elementType_of_ok e]
  exact require_eq_ok_iff.mp houtput

theorem elementType_matMul {left right : Bool} (e : matMul left right a b = .ok s) :
    productType a.elementType b.elementType = .ok s.elementType := by
  obtain ⟨t, ht, e⟩ := bind_eq_ok_iff.mp e
  rw [ht]
  split at e
  · split at e
    · obtain ⟨⟨⟩, -, e⟩ := bind_eq_ok_iff.mp e
      obtain ⟨batch, -, e⟩ := bind_eq_ok_iff.mp e
      split at e <;> rw [elementType_of_ok e]
    · cases e
  · rw [elementType_of_ok e]

theorem elementType_fullyConnected {bias : Option Spec}
    (e : fullyConnected a b bias = .ok s) :
    productType a.elementType b.elementType = .ok s.elementType := by
  obtain ⟨t, ht, e⟩ := bind_eq_ok_iff.mp e
  rw [ht]
  split at e
  · cases e
  · obtain ⟨_, -, e⟩ := bind_eq_ok_iff.mp e
    split at e
    · rw [elementType_of_ok e]
    · obtain ⟨_, -, e⟩ := bind_eq_ok_iff.mp e
      obtain ⟨_, -, e⟩ := bind_eq_ok_iff.mp e
      rw [elementType_of_ok e]
  · cases e

theorem elementTypes_unique {indexType : ElementType} {axis : Option Int} {outputs : List Spec}
    (e : unique indexType axis s = .ok outputs) :
    outputs.map Spec.elementType = [s.elementType, indexType, indexType, indexType] := by
  obtain ⟨_, -, e⟩ := bind_eq_ok_iff.mp e
  dsimp only at e
  split at e
  · obtain rfl := Except.ok.inj e
    rfl
  · obtain rfl := Except.ok.inj e
    rfl
  · obtain ⟨_, -, e⟩ := bind_eq_ok_iff.mp e
    obtain rfl := Except.ok.inj e
    rfl

end Inferred

/-- A product with transposed weights takes two inputs, or three with a bias. -/
theorem Rule.fullyConnected_eq_ok_iff {op : Operation Interface} {given outputs : List Spec} :
    Rule.fullyConnected op given = .ok outputs ↔
      ∃ (a b : Spec) (bias : Option Spec) (s : Spec), given = a :: b :: bias.toList ∧
        Inferred.fullyConnected a b bias = .ok s ∧ outputs = [s] := by
  constructor
  · intro e
    unfold Rule.fullyConnected at e
    split at e
    · obtain ⟨s, hs, rfl⟩ := Inferred.bind_singleton_eq_ok_iff.mp e
      exact ⟨_, _, none, s, rfl, hs, rfl⟩
    · obtain ⟨s, hs, rfl⟩ := Inferred.bind_singleton_eq_ok_iff.mp e
      exact ⟨_, _, some _, s, rfl, hs, rfl⟩
    · cases e
  · rintro ⟨a, b, bias, s, rfl, hs, rfl⟩
    cases bias <;> exact Inferred.bind_singleton_eq_ok_iff.mpr ⟨s, hs, rfl⟩

/-! ### Operations -/

namespace Operation

theorem infer_standard_eq_ok {op : Operation Interface} {specs outputs : List Spec}
    (e : CapabilityTable.standard.infer op specs = .ok outputs) :
    (Capability.standard op.kind).arity.accepts specs.length = true ∧
      (Capability.standard op.kind).rule op specs = .ok outputs := by
  simp only [CapabilityTable.infer, CapabilityTable.standard] at e
  split at e
  · rename_i harity
    split at e
    · rename_i outputs' hrule
      obtain rfl := Except.ok.inj e
      exact ⟨harity, hrule⟩
    · cases e
  · cases e

theorem accepts_exactly {n k : Nat} (h : (Arity.exactly n).accepts k = true) : k = n := by
  obtain ⟨hle, hge⟩ := Bool.and_eq_true_iff.mp h
  exact Nat.le_antisymm (of_decide_eq_true hge) (of_decide_eq_true hle)

namespace Types

variable {op : Operation Body} {p : Primitive}

theorem exists_type {t : Option ElementType} (h : op.Types ins outs) (ht : t ∈ ins) :
    ∃ u, t = some u := by
  obtain ⟨specs, outputs, rfl, -⟩ := h
  obtain ⟨s, -, rfl⟩ := List.mem_map.mp ht
  exact ⟨s.elementType, rfl⟩

theorem length_inputs {k : Nat} (h : op.Types ins outs)
    (ha : (Capability.standard op.kind).arity = .exactly k) : ins.length = k := by
  obtain ⟨specs, outputs, rfl, e, -⟩ := h
  obtain ⟨harity, -⟩ := infer_standard_eq_ok e
  rw [kind_map, ha] at harity
  exact (List.length_map _).trans (accepts_exactly harity)

/-- What the standard rule for a primitive says of it. -/
theorem rule (h : Types (primitive p) ins outs) : ∃ specs outputs,
    specs.map (fun s => some s.elementType) = ins ∧ outputs.map Spec.elementType = outs ∧
      (Capability.standard p.kind).arity.accepts specs.length = true ∧
      (Capability.standard p.kind).rule (primitive p) specs = .ok outputs := by
  obtain ⟨specs, outputs, hins, e, houts⟩ := h
  obtain ⟨harity, hrule⟩ := infer_standard_eq_ok e
  exact ⟨specs, outputs, hins, houts, harity, hrule⟩

theorem ofFirst {rule : Primitive → Option (Spec → Inferred Spec)} {f : Spec → Inferred Spec}
    (hc : Capability.standard p.kind = ⟨.exactly 1, Rule.ofFirst rule⟩) (hp : rule p = some f)
    (h : Types (primitive p) ins outs) :
    ∃ s s', f s = .ok s' ∧ ins = [some s.elementType] ∧ outs = [s'.elementType] := by
  obtain ⟨specs, outputs, rfl, rfl, harity, e⟩ := h.rule
  rw [hc] at harity e
  obtain ⟨s, rfl⟩ := List.length_eq_one_iff.mp (accepts_exactly harity)
  simp only [Rule.ofFirst, hp] at e
  obtain ⟨s', hs', rfl⟩ := Inferred.bind_singleton_eq_ok_iff.mp e
  exact ⟨s, s', hs', rfl, rfl⟩

theorem exists_primitive (hk : op.kind ≠ .subgraph) : ∃ p, op = primitive p ∧ p.kind = op.kind := by
  cases op with
  | primitive p => exact ⟨p, rfl, rfl⟩
  | subgraph b => exact absurd rfl hk

/-- Changes of layout and reductions keep the type of their only input. -/
theorem keep (h : op.Types ins outs)
    (hk : op.kind ∈ [.transpose, .reshape, .squeeze, .unsqueeze, .reduceMax]) :
    ∃ t, ins = [some t] ∧ outs = [t] := by
  have hprimitive : op.kind ≠ .subgraph := by
    rintro he
    simp [he] at hk
  obtain ⟨p, rfl, -⟩ := exists_primitive hprimitive
  cases p with
  | transpose perm =>
    obtain ⟨s, s', e, rfl, rfl⟩ := h.ofFirst rfl rfl
    exact ⟨_, rfl, by rw [Inferred.elementType_transpose e]⟩
  | reshape target specialZero =>
    obtain ⟨s, s', e, rfl, rfl⟩ := h.ofFirst rfl rfl
    exact ⟨_, rfl, by rw [Inferred.elementType_reshape e]⟩
  | squeeze axes =>
    obtain ⟨s, s', e, rfl, rfl⟩ := h.ofFirst rfl rfl
    exact ⟨_, rfl, by rw [Inferred.elementType_squeeze e]⟩
  | unsqueeze axes =>
    obtain ⟨s, s', e, rfl, rfl⟩ := h.ofFirst rfl rfl
    exact ⟨_, rfl, by rw [Inferred.elementType_unsqueeze e]⟩
  | reduceMax axes keepAxes =>
    obtain ⟨s, s', e, rfl, rfl⟩ := h.ofFirst rfl rfl
    exact ⟨_, rfl, by rw [Inferred.elementType_reduce e]⟩
  | _ => simp [kind, Primitive.kind] at hk

/-- Sums, differences and products are of the type of both operands. -/
theorem arithmetic (h : op.Types ins outs) (hk : op.kind ∈ [.add, .subtract, .multiply]) :
    ∃ t, ins = [some t, some t] ∧ outs = [t] := by
  have hprimitive : op.kind ≠ .subgraph := by
    rintro he
    simp [he] at hk
  obtain ⟨p, rfl, -⟩ := exists_primitive hprimitive
  have hc : Capability.standard p.kind = ⟨.exactly 2, Rule.arithmetic⟩ := by
    cases p <;> first | rfl | simp [kind, Primitive.kind] at hk
  obtain ⟨specs, outputs, rfl, rfl, harity, e⟩ := h.rule
  rw [hc] at harity e
  obtain ⟨a, b, rfl⟩ := List.length_eq_two.mp (accepts_exactly harity)
  obtain ⟨s, hs, rfl⟩ := Inferred.bind_singleton_eq_ok_iff.mp e
  obtain ⟨hab, hs⟩ := Inferred.elementType_arithmetic hs
  exact ⟨a.elementType, by simp [hab], by simp [hs]⟩

theorem gather {axis : Int} (h : Types (primitive (.gather axis)) ins outs) :
    ∃ t u, ins = [some t, some u] ∧ outs = [t] := by
  obtain ⟨specs, outputs, rfl, rfl, harity, e⟩ := h.rule
  obtain ⟨a, b, rfl⟩ := List.length_eq_two.mp (accepts_exactly harity)
  obtain ⟨s, hs, rfl⟩ := Inferred.bind_singleton_eq_ok_iff.mp e
  exact ⟨a.elementType, b.elementType, rfl, by simp [Inferred.elementType_gather hs]⟩

theorem fullyConnected (h : op.Types ins outs) (hk : op.kind = .fullyConnected) :
    ∃ d w rest t, ins = some d :: some w :: rest ∧ outs = [t] ∧
      Inferred.productType d w = .ok t := by
  obtain ⟨p, rfl, -⟩ := exists_primitive (show op.kind ≠ .subgraph by simp [hk])
  obtain rfl : p = .fullyConnected := by
    cases p <;> first | rfl | cases hk
  obtain ⟨specs, outputs, rfl, rfl, harity, e⟩ := h.rule
  obtain ⟨a, b, bias, s, rfl, hs, rfl⟩ := Rule.fullyConnected_eq_ok_iff.mp e
  exact ⟨_, _, _, _, rfl, rfl, Inferred.elementType_fullyConnected hs⟩

/-- A product is of the type that the types of its operands lead to. -/
theorem matMul (h : op.Types ins outs) (hk : op.kind = .matMul) :
    ∃ a b t, ins = [some a, some b] ∧ outs = [t] ∧ Inferred.productType a b = .ok t := by
  obtain ⟨p, rfl, -⟩ := exists_primitive (show op.kind ≠ .subgraph by simp [hk])
  obtain ⟨left, right, rfl⟩ : ∃ left right, p = .matMul left right := by
    cases p <;> first | exact ⟨_, _, rfl⟩ | cases hk
  obtain ⟨specs, outputs, rfl, rfl, harity, e⟩ := h.rule
  obtain ⟨a, b, rfl⟩ := List.length_eq_two.mp (accepts_exactly harity)
  obtain ⟨s, hs, rfl⟩ := Inferred.bind_singleton_eq_ok_iff.mp e
  exact ⟨_, _, _, rfl, rfl, Inferred.elementType_matMul hs⟩

/-- What is quantized is of a quantized type. -/
theorem quantize (h : op.Types ins outs) (hk : op.kind = .quantize) :
    ∃ t u, ins = [some t] ∧ outs = [u] ∧ u.isQuantized = true := by
  obtain ⟨p, rfl, -⟩ := exists_primitive (show op.kind ≠ .subgraph by simp [hk])
  obtain ⟨scale, zeroPoint, output, rfl⟩ : ∃ scale zeroPoint output,
      p = .quantize scale zeroPoint output := by
    cases p <;> first | exact ⟨_, _, _, rfl⟩ | cases hk
  obtain ⟨s, s', e, rfl, rfl⟩ := h.ofFirst rfl rfl
  exact ⟨_, _, rfl, rfl, Inferred.elementType_quantize e⟩

theorem constant {value : Tensor} (h : Types (primitive (.constant value)) ins outs) :
    ins = [] ∧ outs = [value.elementType] := by
  obtain ⟨specs, outputs, rfl, rfl, harity, e⟩ := h.rule
  obtain rfl := List.length_eq_zero_iff.mp (accepts_exactly harity)
  obtain rfl := Except.ok.inj e
  exact ⟨rfl, rfl⟩

theorem convert {t : ElementType} (h : Types (primitive (.convert t)) ins outs) :
    ∃ u, ins = [some u] ∧ outs = [t] := by
  obtain ⟨s, s', e, rfl, rfl⟩ := h.ofFirst rfl rfl
  obtain rfl := Except.ok.inj e
  exact ⟨_, rfl, rfl⟩

theorem unique {indexType : ElementType} {axis : Option Int}
    (h : Types (primitive (.unique indexType axis)) ins outs) :
    ∃ t, ins = [some t] ∧ outs = [t, indexType, indexType, indexType] := by
  obtain ⟨specs, outputs, rfl, rfl, harity, e⟩ := h.rule
  obtain ⟨s, rfl⟩ := List.length_eq_one_iff.mp (accepts_exactly harity)
  exact ⟨_, rfl, Inferred.elementTypes_unique e⟩

end Types

end Operation

end TensorGraph
