import TensorGraph.Proofs.Pass.Drift
import TensorGraph.Proofs.Pass.LoweringSteps

/-! # Specs of the lowering of Unique

What the lowering stages is inferred like anything else. Of the distinct values only the rank is
known, unless there is but one; the places are as many as the elements of the flattened input.
-/

namespace TensorGraph

open Arena

namespace Shape

def isHeld : Shape → Bool
  | unranked => true
  | ranked extents => extents.all fun e => e.size?.all (· < countLimit)

def flatExtent (s : Shape) : Extent :=
  match s.elementCount? with
  | some count => .known count
  | none => .unknown

end Shape

theorem Shape.elementCount?_lt {s : Shape} {count : Nat} (h : s.elementCount? = some count) :
    count < countLimit := by
  obtain ⟨sizes, -, h⟩ := Option.bind_eq_some_iff.mp h
  exact foldlM_bounded_lt (by decide) h

theorem Shape.elementCount?_singleton {n : Nat} (h : n < countLimit) :
    (ranked [.known n]).elementCount? = some n := by
  simp [elementCount?, sizes?, extents?, Extent.size?, boundedProduct, boundedMul, h]

theorem Inferred.reshape_flat (s : Spec) :
    Inferred.reshape [-1] false s = .ok ⟨s.elementType, .ranked [s.shape.flatExtent]⟩ := by
  simp only [reshape, Shape.flatExtent]
  cases s.shape.elementCount? with
  | none => rfl
  | some count =>
    simp [require, targetExtent, literalCount, literalSizes?, boundedProduct, ofOption, Nat.mod_one,
      pure, Except.pure, bind, Except.bind, Except.map]

theorem lt_of_resolveAxis {axis : Int} {rank i : Nat} (h : resolveAxis axis rank = some i) :
    i < rank := by
  obtain ⟨⟨hle, hlt⟩, hi⟩ := Option.ite_none_right_eq_some.mp h
  have hi := Option.some.inj hi
  omega

theorem Inferred.lt_of_axisOf {shape : Shape} {rank i : Nat} {axis : Int}
    (h : axisOf shape rank axis = .ok i) : i < rank := by
  unfold axisOf ofOption at h
  split at h
  · rename_i hi
    exact lt_of_resolveAxis (Except.ok.inj h ▸ hi)
  · cases h

namespace UniqueLowering

open Staging

variable {g h : Graph} {root : NodeId} {m : Match} {n : Node Body} {p : Plan Body} {v : Value}
variable {x y : Operand} {t elementType indexType : ElementType} {axis : Option Int} {e : Extent}
variable {a b s spec flat : Spec} {shape : Shape}

/-! ### Everything staged is inferred -/

abbrev Admissible (k : Kind) : Prop := k ≠ .unique

section Infers

theorem infers_step {q : Primitive} {inputs : List Operand} (hq : q.kind ≠ .unique) :
    Infers g Admissible (step g q inputs) := infers_makeValue hq

theorem infers_constant {value : Tensor} : Infers g Admissible (constant g value) :=
  infers_step (q := .constant value) Kind.noConfusion

theorem infers_lengthOf : Infers g Admissible (lengthOf g x) :=
  .bind (infers_step (by decide)) fun _ => infers_step (by decide)

theorem infers_sorted : Infers g Admissible (sorted g x y) := infers_step (by decide)

theorem infers_runStarts {one zero : Operand} :
    Infers g Admissible (runStarts g elementType one zero x) :=
  .bind infers_constant fun _ => .bind (infers_step (by decide)) fun _ =>
  .bind (infers_step (by decide)) fun _ => .bind (infers_step (by decide)) fun _ =>
  .bind (infers_step (by decide)) fun _ => .bind infers_constant fun _ =>
  .bind (infers_step (by decide)) fun _ => .bind (infers_step (by decide)) fun _ =>
  .bind (infers_step (by decide)) fun _ => infers_step (by decide)

theorem infers_firstPositions {row distinct count one scalarOne : Operand} :
    Infers g Admissible (firstPositions g row distinct count one scalarOne) :=
  .bind (infers_step (by decide)) fun _ => .bind (infers_step (by decide)) fun _ =>
  .bind (infers_step (by decide)) fun _ => .bind (infers_step (by decide)) fun _ =>
  .bind (infers_step (by decide)) fun _ => .bind (infers_step (by decide)) fun _ =>
  .bind (infers_step (by decide)) fun _ => .bind (infers_step (by decide)) fun _ =>
  infers_step (by decide)

theorem infers_places {row values count scalarOne : Operand} :
    Infers g Admissible (places g indexType row values count scalarOne) :=
  .bind infers_constant fun _ => .bind infers_constant fun _ =>
  .bind (infers_step (by decide)) fun _ => .bind (infers_step (by decide)) fun _ =>
  .bind (infers_step (by decide)) fun _ => .bind (infers_step (by decide)) fun _ =>
  .bind (infers_step (q := .range indexType) Kind.noConfusion) fun _ =>
  .bind (infers_step (by decide)) fun _ => .bind (infers_step (by decide)) fun _ =>
  .bind (infers_step (by decide)) fun _ => infers_make (by decide)

theorem infers_lower : Infers g Admissible (lower g elementType indexType x) :=
  .bind infers_constant fun _ => .bind infers_constant fun _ => .bind infers_constant fun _ =>
  .bind infers_lengthOf fun _ => .bind infers_sorted fun _ => .bind infers_runStarts fun _ =>
  .bind (infers_step (by decide)) fun _ => .bind (infers_step (by decide)) fun _ =>
  .bind infers_firstPositions fun _ => .bind infers_lengthOf fun _ =>
  .bind infers_sorted fun _ => .bind (infers_make (by decide)) fun _ =>
  .bind infers_places fun _ => infers_pure

theorem infers_results {single : Bool} {k : Nat} :
    Infers g Admissible (results g elementType indexType single k) := by
  cases single with
  | false => exact infers_lower
  | true => exact .bind (infers_make Kind.noConfusion) fun _ => infers_pure

theorem infers_replaceUsed {v : Value} : Infers g Admissible (replaceUsed g v x) := by
  unfold replaceUsed
  split
  · exact infers_replace
  · exact infers_pure

theorem infers_finish {outputs : Nat × Nat} {name : String} :
    Infers g Admissible (finish g root name outputs) :=
  .bind infers_rename fun _ => .bind infers_rename fun _ => .bind infers_inherit fun _ =>
    .bind infers_replaceUsed fun _ => infers_replaceUsed

theorem infers_pass (hnode : h.node? = g.node?) (hm : pass.pattern.matchNode g root = some m)
    (e : pass.rewrite h m = .ok p) : p.Infers h Admissible := by
  obtain ⟨n, hn, -, -, rfl⟩ := Pattern.matchNode_leaf hm
  rw [← hnode] at hn
  refine Staging.Infers.toPlan (.bind infers_ofOption ?_) ((rewrite_leaf hn).symm.trans e)
  rintro ⟨indexType, axis⟩
  exact .bind infers_ofOption fun v => .bind infers_ofOption fun s => .bind infers_check fun _ =>
    .bind infers_check fun _ => .bind infers_check fun _ => .bind (infers_make (by decide))
    fun flat => .bind infers_spec fun flatSpec => .bind infers_results fun _ => infers_finish

end Infers

/-! ### Specs of the steps -/

def inferred (p : Primitive) (given : List Spec) : Option (List Spec) :=
  (CapabilityTable.standard.infer (.primitive p) given).toOption

theorem step_of_rule {q : Primitive} {given : List Spec} {r : Inferred Spec}
    (harity : (Capability.standard q.kind).arity.accepts given.length = true)
    (hrule : (Capability.standard q.kind).rule (.primitive q) given = r >>= fun s => pure [s])
    (hr : r = .ok s) : Lowered.step inferred q given = some s := by
  have hinfer : CapabilityTable.standard.infer (.primitive q) given = .ok [s] :=
    Operation.infer_standard_eq_ok_iff.mpr ⟨harity, hrule.trans (hr ▸ rfl)⟩
  rw [Lowered.step, inferred, hinfer]
  rfl

section Broadcast

variable {shape shape' joined joined' : Shape}

theorem paired_eq_ok (h : Inferred.broadcast shape shape' = .ok joined) :
    Inferred.paired ⟨t, shape⟩ ⟨t, shape'⟩ = .ok joined :=
  bind_eq_ok_iff.mpr ⟨(), Inferred.require_eq_ok_iff.mpr (beq_self_eq_true t), h⟩

theorem step_arithmetic {q : Primitive} (hq : q = .add ∨ q = .subtract ∨ q = .multiply)
    (h : Inferred.broadcast shape shape' = .ok joined) :
    Lowered.step inferred q [⟨t, shape⟩, ⟨t, shape'⟩] = some ⟨t, joined⟩ := by
  have harithmetic : Inferred.arithmetic ⟨t, shape⟩ ⟨t, shape'⟩ = .ok ⟨t, joined⟩ :=
    bind_eq_ok_iff.mpr ⟨joined, paired_eq_ok h, rfl⟩
  rcases hq with rfl | rfl | rfl <;> exact step_of_rule rfl rfl harithmetic

theorem step_equal (h : Inferred.broadcast shape shape' = .ok joined) :
    Lowered.step inferred .equal [⟨t, shape⟩, ⟨t, shape'⟩] = some ⟨.boolean, joined⟩ :=
  step_of_rule rfl rfl (bind_eq_ok_iff.mpr ⟨joined, paired_eq_ok h, rfl⟩)

theorem step_select {first second : Shape} (h : Inferred.broadcast shape first = .ok joined)
    (h' : Inferred.broadcast joined second = .ok joined') :
    Lowered.step inferred .select [⟨.boolean, shape⟩, ⟨t, first⟩, ⟨t, second⟩] =
      some ⟨t, joined'⟩ := by
  refine step_of_rule rfl rfl (bind_eq_ok_iff.mpr ⟨(), rfl, bind_eq_ok_iff.mpr ⟨(), ?_, ?_⟩⟩)
  · exact Inferred.require_eq_ok_iff.mpr (beq_self_eq_true t)
  · exact bind_eq_ok_iff.mpr ⟨joined, h, bind_eq_ok_iff.mpr ⟨joined', h', rfl⟩⟩

end Broadcast

theorem broadcast_one (e : Extent) : e.broadcast (.known 1) = .ok e := by
  cases e with
  | unknown => rfl
  | known n =>
    unfold Extent.broadcast
    grind

theorem one_broadcast (e : Extent) : (Extent.known 1).broadcast e = .ok e := by
  cases e with
  | unknown => rfl
  | known n =>
    unfold Extent.broadcast
    grind

theorem broadcast_list {a b e : Extent} (h : a.broadcast b = .ok e) :
    Inferred.broadcast (.ranked [a]) (.ranked [b]) = .ok (.ranked [e]) := by
  simp [Inferred.broadcast, Shape.broadcast, Shape.broadcastExtents, alignRight, h, Except.map,
    pure, Except.pure, bind, Except.bind]

theorem broadcast_table {a b c d e e' : Extent} (h : a.broadcast c = .ok e)
    (h' : b.broadcast d = .ok e') :
    Inferred.broadcast (.ranked [a, b]) (.ranked [c, d]) = .ok (.ranked [e, e']) := by
  simp [Inferred.broadcast, Shape.broadcast, Shape.broadcastExtents, alignRight, h, h', Except.map,
    pure, Except.pure, bind, Except.bind]

theorem broadcast_small {a b : Extent} {extents : List Extent}
    (h : extents = [] ∨ extents = [.known 1]) :
    Inferred.broadcast (.ranked [a, b]) (.ranked extents) = .ok (.ranked [a, b]) := by
  rcases h with rfl | rfl <;>
  simp [Inferred.broadcast, Shape.broadcast, Shape.broadcastExtents, alignRight, broadcast_one,
    Except.map, pure, Except.pure, bind, Except.bind]

theorem bind_eq_of_eq_some {α γ : Type} {x : Option α} {f : α → Option γ} {a : α} {r : Option γ}
    (hx : x = some a) (h : f a = r) : (x >>= f) = r := hx ▸ h

abbrev array (t : ElementType) (extents : List Extent) : Spec := ⟨t, .ranked extents⟩

theorem lengthOf_inferred : Lowered.lengthOf inferred (array t [e]) = some (array .i32 []) := rfl

theorem sorted_inferred : Lowered.sorted inferred (array t [e]) (array .i32 []) =
    some (array t [.unknown]) := rfl

theorem runStarts_inferred : Lowered.runStarts inferred t (array .i32 [.known 1])
    (array .i32 [.known 1]) (array t [.unknown]) = some (array .i64 [.unknown]) := by
  cases t <;> rfl

theorem firstPositions_inferred : Lowered.firstPositions inferred (array t [.known 1, e])
    (array t [.unknown]) (array .i32 []) (array .i32 [.known 1]) (array .i32 []) =
      some (array .i32 [.unknown]) := by
  obtain ⟨e', he⟩ : ∃ e', e.broadcast .unknown = .ok e' := by cases e <;> exact ⟨_, rfl⟩
  simp only [Lowered.firstPositions, Option.bind_eq_bind, Option.bind_eq_some_iff]
  refine ⟨array t [.unknown, .known 1], rfl, array .boolean [.unknown, e], ?_, array .i32 [], rfl,
    array .i32 [.unknown, e], ?_, array .i32 [.unknown], rfl, array .i32 [.known 1, .unknown], rfl,
    array .i32 [.unknown, e'], ?_, array .i32 [.unknown], rfl, rfl⟩
  · exact step_equal (broadcast_table rfl (broadcast_one e))
  · exact step_select (broadcast_small (.inl rfl)) (broadcast_small (.inl rfl))
  · exact step_arithmetic (.inr (.inr rfl)) (broadcast_table rfl he)

theorem places_inferred : Lowered.places inferred indexType (array t [.known 1, e])
    (array t [.unknown]) (array .i32 []) (array .i32 []) = some (array indexType [e]) := by
  simp only [Lowered.places, Option.bind_eq_bind, Option.bind_eq_some_iff]
  refine ⟨array indexType [.known 1], rfl, array indexType [.known 1], rfl,
    array t [.unknown, .known 1], rfl, array .boolean [.unknown, e], ?_, array .i32 [], rfl,
    array indexType [.unknown, e], ?_, array indexType [.unknown], rfl,
    array indexType [.unknown, .known 1], rfl, array indexType [.unknown, e], ?_,
    array indexType [e], rfl, ?_⟩
  · exact step_equal (broadcast_table rfl (one_broadcast e))
  · exact step_select (broadcast_small (.inr rfl)) (broadcast_small (.inr rfl))
  · exact step_arithmetic (.inr (.inr rfl)) (broadcast_table rfl (broadcast_one e))
  · exact step_arithmetic (.inr (.inl rfl)) (broadcast_list (broadcast_one e))

theorem lower_inferred : Lowered.lower inferred t indexType (array t [e]) =
    some (array t [.unknown], array indexType [e]) := by
  have hone : Lowered.constant inferred (.splat .i32 [1] 1) = some (array .i32 [.known 1]) := rfl
  have hzero : Lowered.constant inferred (.splat .i32 [1] 0) = some (array .i32 [.known 1]) := rfl
  have hscalar : Lowered.constant inferred (.scalar .i32 1) = some (array .i32 []) := rfl
  have hgather {k : ElementType} {e : Extent} (hk : k.isInteger = true) :
      Lowered.step inferred (.gather 0) [array t [e], array k [.unknown]] =
        some (array t [.unknown]) := by
    cases k <;> first | rfl | cases hk
  have hrow : Lowered.step inferred (.unsqueeze [0]) [array t [e]] =
      some (array t [.known 1, e]) := rfl
  unfold Lowered.lower
  refine bind_eq_of_eq_some hone ?_
  refine bind_eq_of_eq_some hzero ?_
  refine bind_eq_of_eq_some hscalar ?_
  refine bind_eq_of_eq_some lengthOf_inferred ?_
  refine bind_eq_of_eq_some sorted_inferred ?_
  refine bind_eq_of_eq_some runStarts_inferred ?_
  refine bind_eq_of_eq_some (hgather rfl) ?_
  refine bind_eq_of_eq_some hrow ?_
  refine bind_eq_of_eq_some firstPositions_inferred ?_
  refine bind_eq_of_eq_some lengthOf_inferred ?_
  refine bind_eq_of_eq_some sorted_inferred ?_
  refine bind_eq_of_eq_some (hgather rfl) ?_
  exact bind_eq_of_eq_some places_inferred rfl

theorem eq_known_one (h : (Shape.ranked [e]).elementCount? = some 1) : e = .known 1 := by
  cases e with
  | unknown => cases h
  | known n =>
    have hcount : 1 = entryCount [n] := elementCount?_ofSizes h
    rw [hcount, entryCount, entryCount, Nat.mul_one]

/-- The values form a list, and the places one that is as long as the flattened input. -/
theorem outputs_inferred (indexType : ElementType) (s : Spec) : ∃ values,
    (values = .unknown ∨ values = .known 1) ∧
    Lowered.outputs inferred ((Shape.ranked [s.shape.flatExtent]).elementCount? = some 1)
      s.elementType indexType s =
        some (array s.elementType [values], array indexType [s.shape.flatExtent]) := by
  have hflat : Lowered.step inferred (.reshape [-1] false) [s] =
      some (array s.elementType [s.shape.flatExtent]) :=
    step_of_rule rfl rfl (Inferred.reshape_flat s)
  by_cases hone : (Shape.ranked [s.shape.flatExtent]).elementCount? = some 1
  · refine ⟨.known 1, .inr rfl, ?_⟩
    rw [decide_eq_true hone, eq_known_one hone]
    rw [eq_known_one hone] at hflat
    exact Option.bind_eq_some_iff.mpr ⟨_, hflat, rfl⟩
  · refine ⟨.unknown, .inl rfl, ?_⟩
    rw [decide_eq_false hone]
    exact Option.bind_eq_some_iff.mpr ⟨_, hflat, lower_inferred⟩

/-! ### Specs of what is replaced -/

/-- More may become known of an input, and that of a node to be lowered is held in 64 bits. -/
def drift : Drift where
  rel k a s := a.Refines s ∧ (k = .unique → a.shape.isHeld = true)
  staged := Admissible
  trans h h' := ⟨h.1.trans h'.1, h.2⟩
  same hk := ⟨.rfl, fun h => absurd h hk⟩

theorem flatExtent_singleton {x : Extent} (hx : e.Refines x)
    (hheld : (Shape.ranked [e]).isHeld = true) :
    (Shape.ranked [e]).flatExtent.Refines x := by
  cases hx with
  | unknown => exact .unknown _
  | known count =>
    have hlt : count < countLimit := by simpa [Shape.isHeld, Extent.size?] using hheld
    rw [Shape.flatExtent, Shape.elementCount?_singleton hlt]
    exact .known count

theorem refines_unique {outputs : List Spec} (values : Extent) (ha : a.Refines s)
    (hheld : a.shape.isHeld = true) (hflat : isFlat axis a = true)
    (h : Inferred.unique indexType axis s = .ok outputs) : ∃ old₀ old₁ old₂ old₃,
      outputs = [old₀, old₁, old₂, old₃] ∧ (array a.elementType [values]).Refines old₀ ∧
        (array indexType [a.shape.flatExtent]).Refines old₂ := by
  have houtputs {shape reverse : Shape} (hv : (Shape.ranked [values]).Refines shape)
      (hr : (Shape.ranked [a.shape.flatExtent]).Refines reverse)
      (ho : [⟨s.elementType, shape⟩, ⟨indexType, .ofRank 1⟩, ⟨indexType, reverse⟩,
        ⟨indexType, .ofRank 1⟩] = outputs) : ∃ old₀ old₁ old₂ old₃,
          outputs = [old₀, old₁, old₂, old₃] ∧ (array a.elementType [values]).Refines old₀ ∧
            (array indexType [a.shape.flatExtent]).Refines old₂ :=
    ⟨_, _, _, _, ho.symm, ⟨ha.elementType, hv⟩, rfl, hr⟩
  have hrank_one {e : Extent} : (Shape.ranked [e]).Refines (.ofRank 1) := Shape.refines_ofRank [e]
  obtain ⟨_, -, h⟩ := bind_eq_ok_iff.mp h
  cases axis with
  | none =>
    refine houtputs hrank_one ?_ (Except.ok.inj h)
    cases hcount : s.shape.elementCount? with
    | none => exact hrank_one
    | some count =>
      rw [ha.shape.eq_of_elementCount? hcount, Shape.flatExtent, hcount]
      exact .rfl
  | some axis =>
    cases ha using Spec.Refines.byShape with
    | unranked t c ha => exact houtputs (.unranked _) hrank_one (Except.ok.inj h)
    | ranked t extents concrete hextents =>
      obtain ⟨i, hi, h⟩ := bind_eq_ok_iff.mp h
      have hrank : concrete.length ≤ 1 := by
        simpa [isFlat, Shape.rank?, Shape.extents?] using hflat
      have hlt := Inferred.lt_of_axisOf hi
      -- the input is a list, and so the values are as open as the length of a list can be
      have hlen := hextents.length_eq
      obtain ⟨x, rfl⟩ := List.length_eq_one_iff.mp (show extents.length = 1 by omega)
      obtain ⟨e, rfl⟩ := List.length_eq_one_iff.mp (show concrete.length = 1 by omega)
      obtain rfl : i = 0 := by simpa using hlt
      obtain - | ⟨hx, -⟩ := hextents
      refine houtputs ?_ ?_ (Except.ok.inj h)
      · exact .ranked (.cons (.unknown _) .nil)
      · exact .ranked (.cons (flatExtent_singleton hx hheld) .nil)

theorem Lowers.flat_eq (hl : Lowers h root n v indexType axis spec flat)
    (ht : h.table = .standard) : flat = array spec.elementType [spec.shape.flatExtent] := by
  obtain ⟨outputs, hinfer⟩ := hl.infer_eq
  rw [infer, ht] at hinfer
  obtain ⟨s, out, hs, hout, houts⟩ := (CapabilityTable.infer_first_iff rfl rfl).mp hinfer
  obtain ⟨rfl, -⟩ := List.cons.inj hs
  obtain ⟨rfl, -⟩ := List.cons.inj houts
  exact (Except.ok.inj ((Inferred.reshape_flat spec).symm.trans hout)).symm

theorem isHeld_flatExtent (shape : Shape) : (Shape.ranked [shape.flatExtent]).isHeld = true := by
  unfold Shape.flatExtent
  split
  · rename_i hcount
    simpa [Shape.isHeld, Extent.size?] using Shape.elementCount?_lt hcount
  · rfl

theorem drifts_pass : pass.Drifts drift Spec.Refines := by
  intro g h root m plan hh hnode hm e
  obtain ⟨n, v, indexType, axis, spec, flat, x, y, hlowers, hreplacements, hreads⟩ :=
    reads_pass hnode hm e
  obtain ⟨given, hgiven, hinfer⟩ := hh.infer hlowers.node?_eq hlowers.op_eq
  obtain ⟨s, rfl, hunique⟩ := CapabilityTable.infer_unique_iff.mp hinfer
  obtain ⟨w, inputs, ⟨a, ha, hrefines, hheld⟩, -, hinputs⟩ :=
    List.forall₂_cons_right_iff.mp hgiven
  obtain rfl : w = v := by
    have hhead := hlowers.head?_eq
    rw [hinputs] at hhead
    exact Option.some.inj hhead
  obtain rfl : a = spec := Option.some.inj (ha.symm.trans hlowers.spec?_eq)
  obtain ⟨values, hvalues, hout⟩ := outputs_inferred indexType a
  obtain ⟨old₀, old₁, old₂, old₃, hspecs, h₀, h₂⟩ :=
    refines_unique values hrefines (hheld rfl) hlowers.isFlat hunique
  have hone : flat.shape = .ranked [a.shape.flatExtent] :=
    congrArg Spec.shape (hlowers.flat_eq hh.table)
  obtain ⟨hx, hy⟩ := hreads (Reading.specs hh.table) a _ _ ha (by rw [hone]; exact hout)
  have hspec (port : Nat) : h.spec? (root.output port) = [old₀, old₁, old₂, old₃][port]? := by
    rw [spec?_of_node? hlowers.node?_eq, ← hspecs]
    rfl
  have hexchanges : plan.Exchanges h fun new old =>
      new.Refines old ∧ new.shape.isHeld = true := by
    intro r hr
    rw [hreplacements] at hr
    rcases List.mem_append.mp hr with hr | hr
    · obtain ⟨-, rfl⟩ := mem_replaced.mp hr
      refine ⟨_, _, hx, hspec 0, h₀, ?_⟩
      rcases hvalues with rfl | rfl <;> rfl
    · obtain ⟨-, rfl⟩ := mem_replaced.mp hr
      exact ⟨_, _, hy, hspec 2, h₂, isHeld_flatExtent a.shape⟩
  exact ⟨⟨infers_pass hnode hm e, hexchanges.mono fun _ _ hr _ => ⟨hr.1, fun _ => hr.2⟩⟩,
    hexchanges.mono fun _ _ hr => hr.1⟩

end UniqueLowering

end TensorGraph
