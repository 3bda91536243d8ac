import TensorGraph.Proofs.Arena.Reach
import TensorGraph.Proofs.Arena.Validity
import TensorGraph.Rewrite.Commit

/-! # Accepted plans

What the check of a plan establishes: all operands are there, what is replaced and what replaces
it differ and carry the same element type, and nothing that is repointed is needed by what it is
repointed to.
-/

namespace TensorGraph.Plan

variable {β : Type} {p : Plan β} {a : Arena β} {index : Nat} {x : Operand} {v : Value}
variable {e : GraphError}

/-- The operand can be read by the staged node at an index. -/
def Available (p : Plan β) (a : Arena β) (index : Nat) : Operand → Prop
  | .graph v => a.hasOutput v = true
  | .staged i port => i < index ∧ (p.spec? a (.staged i port)).isSome = true

theorem Available.isSome_spec? (h : p.Available a index x) : (p.spec? a x).isSome = true := by
  cases x with
  | graph v => exact Arena.hasOutput_eq_spec?.symm.trans h
  | staged i port => exact h.2

def dependencies (p : Plan β) (a : Arena β) : List NodeId :=
  a.ancestors (p.graphRoots (p.replacements.map (·.2)))

structure Replaceable (p : Plan β) (a : Arena β) (v : Value) (x : Operand) : Prop where
  differs : x ≠ .graph v
  typed : ∃ old new, a.spec? v = some old ∧ p.spec? a x = some new ∧
    old.elementType = new.elementType

structure Accepted (p : Plan β) (a : Arena β) : Prop where
  operands : ∀ index n, p.staged[index]? = some n → ∀ x ∈ n.inputs, p.Available a index x
  sources : ∀ id ∈ p.sources, a.contains id = true
  replacements : ∀ r ∈ p.replacements, p.Replaceable a r.1 r.2
  acyclic : ∀ r ∈ p.replacements, ∀ u ∈ a.uses r.1, u.node ∉ p.dependencies a

/-- All that the check of a plan asks for apart from cycles. -/
structure Checked (p : Plan β) (a : Arena β) : Prop where
  operands : ∀ index n, p.staged[index]? = some n → ∀ x ∈ n.inputs, p.Available a index x
  sources : ∀ id ∈ p.sources, a.contains id = true
  replacements : ∀ r ∈ p.replacements, p.Replaceable a r.1 r.2

theorem Accepted.checked (h : p.Accepted a) : p.Checked a :=
  ⟨h.operands, h.sources, h.replacements⟩

theorem Checked.accepted (h : p.Checked a)
    (hclear : ∀ r ∈ p.replacements, ∀ u ∈ a.uses r.1, u.node ∉ p.dependencies a) : p.Accepted a :=
  ⟨h.operands, h.sources, h.replacements, hclear⟩

theorem checkOperand_eq_ok_iff : p.checkOperand a index x = .ok () ↔ p.Available a index x := by
  cases x with
  | graph v => simp [checkOperand, Available]
  | staged i port => simp [checkOperand, Available, Option.isSome_iff_ne_none]

theorem operandSpec_eq_ok_iff {s : Spec} :
    p.operandSpec a x = .ok s ↔ p.spec? a x = some s := by
  unfold operandSpec
  split
  · rename_i h
    simp [h]
  · rename_i h
    simp [h]

theorem checkReplacement_eq_ok_iff :
    p.checkReplacement a v x = .ok () ↔ p.Replaceable a v x := by
  simp only [checkReplacement, bind_eq_ok_iff, operandSpec_eq_ok_iff]
  constructor
  · rintro ⟨old, hold, new, hnew, hcheck⟩
    by_cases hx : x = .graph v
    · simp [hx, bind, Except.bind, throw, throwThe, MonadExceptOf.throw] at hcheck
    · refine ⟨hx, old, new, hold, hnew, ?_⟩
      by_contra hne
      simp [hx, hne, throw, throwThe, MonadExceptOf.throw] at hcheck
  · rintro ⟨hx, old, new, hold, hnew, htype⟩
    refine ⟨old, hold, new, hnew, ?_⟩
    simp [hx, htype, pure, Except.pure]

theorem checkCycles_eq_ok_iff : p.checkCycles a = .ok () ↔
    ∀ r ∈ p.replacements, ∀ u ∈ a.uses r.1, u.node ∉ p.dependencies a := by
  rw [checkCycles, forM_eq_ok_iff]
  refine forall₂_congr fun r _ => ?_
  have hfind : (∀ u ∈ a.uses r.1, u.node ∉ p.dependencies a) ↔
      (a.uses r.1).find? (fun u => u.node ∈ p.dependencies a) = none := by
    simp
  rw [hfind, dependencies]
  dsimp only
  split
  · rename_i u hu
    simp [hu]
  · rename_i hnone
    simp [hnone]

theorem checkOperands_eq_ok_iff : p.staged.zipIdx.forM (fun x => x.1.inputs.forM
    (p.checkOperand a x.2)) = .ok () ↔
      ∀ index n, p.staged[index]? = some n → ∀ x ∈ n.inputs, p.Available a index x := by
  simp only [forM_eq_ok_iff, Prod.forall, List.mem_zipIdx_iff_getElem?, checkOperand_eq_ok_iff]
  exact forall_comm

theorem checkSources_eq_ok_iff : p.sources.forM (fun id => discard (a.node id)) = .ok () ↔
    ∀ id ∈ p.sources, a.contains id = true := by
  rw [forM_eq_ok_iff]
  refine forall₂_congr fun id _ => ?_
  rw [Arena.contains_iff]
  simp only [← Arena.node_eq_ok_iff]
  cases a.node id with
  | error e => simp [discard, Functor.discard, Functor.mapConst, Except.map]
  | ok n => simp [discard, Functor.discard, Functor.mapConst, Except.map]

theorem checkReplacements_eq_ok_iff :
    p.replacements.forM (fun x => p.checkReplacement a x.1 x.2) = .ok () ↔
      ∀ r ∈ p.replacements, p.Replaceable a r.1 r.2 := by
  rw [forM_eq_ok_iff]
  exact forall₂_congr fun r _ => checkReplacement_eq_ok_iff

theorem check_eq_ok_iff : p.check a = .ok () ↔ p.Accepted a := by
  simp only [check, bind_eq_ok_iff]
  constructor
  · rintro ⟨_, h₁, _, h₂, _, h₃, h₄⟩
    exact ⟨checkOperands_eq_ok_iff.mp h₁, checkSources_eq_ok_iff.mp h₂,
      checkReplacements_eq_ok_iff.mp h₃, checkCycles_eq_ok_iff.mp h₄⟩
  · rintro ⟨h₁, h₂, h₃, h₄⟩
    exact ⟨(), checkOperands_eq_ok_iff.mpr h₁, (), checkSources_eq_ok_iff.mpr h₂, (),
      checkReplacements_eq_ok_iff.mpr h₃, checkCycles_eq_ok_iff.mpr h₄⟩

theorem Checked.check_eq (h : p.Checked a) : p.check a = p.checkCycles a := by
  simp only [check, checkOperands_eq_ok_iff.mpr h.operands, checkSources_eq_ok_iff.mpr h.sources,
    checkReplacements_eq_ok_iff.mpr h.replacements]
  rfl

/-! ### What is refused -/

/-- Why a plan is refused before cycles are looked for. -/
inductive Fault : GraphError → Prop
  | missing (x : Operand) : Fault (missing x)
  | unknownNode (id : NodeId) : Fault (.unknownNode id)
  | selfReplacement (v : Value) : Fault (.selfReplacement v)
  | elementTypeMismatch (v : Value) (old new : ElementType) :
      Fault (.elementTypeMismatch v old new)

theorem fault_checkOperand (h : p.checkOperand a index x = .error e) : Fault e := by
  have hcases (present : Bool)
      (h : (if present then .ok () else .error (missing x)) = (.error e : Except _ Unit)) :
      Fault e := by
    cases present with
    | true => cases h
    | false => exact Except.error.inj h ▸ .missing x
  exact hcases _ h

theorem fault_checkSource {id : NodeId}
    (h : discard (a.node id) = (.error e : Except GraphError Unit)) : Fault e := by
  unfold Arena.node at h
  split at h
  · cases h
  · exact Except.error.inj h ▸ .unknownNode id

theorem fault_operandSpec (h : p.operandSpec a x = .error e) : Fault e := by
  unfold operandSpec at h
  split at h
  · cases h
  · exact Except.error.inj h ▸ .missing x

theorem fault_checkReplacement (h : p.checkReplacement a v x = .error e) : Fault e := by
  simp only [checkReplacement, bind_eq_error_iff] at h
  rcases h with h | ⟨old, -, h | ⟨new, -, h⟩⟩
  · exact fault_operandSpec h
  · exact fault_operandSpec h
  · by_cases hx : x = .graph v
    · simp only [hx, bind, Except.bind, throw, throwThe, MonadExceptOf.throw, if_true] at h
      exact Except.error.inj h ▸ .selfReplacement v
    · by_cases ht : old.elementType = new.elementType
      · simp [hx, ht, pure, Except.pure] at h
      · simp only [hx, ht, throw, throwThe, MonadExceptOf.throw, if_false, ne_eq,
          not_false_eq_true, if_true] at h
        exact Except.error.inj h ▸ .elementTypeMismatch v _ _

theorem exists_of_checkCycles_eq_error (h : p.checkCycles a = .error e) :
    ∃ r ∈ p.replacements, ∃ u ∈ a.uses r.1,
      u.node ∈ p.dependencies a ∧ e = .cycleIntroduced r.1 u.node := by
  obtain ⟨r, hr, he⟩ := exists_of_forM_eq_error h
  refine ⟨r, hr, ?_⟩
  dsimp only at he
  split at he
  · rename_i u hu
    refine ⟨u, List.mem_of_find?_eq_some hu, ?_, (Except.error.inj he).symm⟩
    simpa [dependencies] using List.find?_some hu
  · cases he

/-- A plan is refused for a fault, or for a cycle if it has nothing else wrong. -/
theorem check_eq_error_cases (h : p.check a = .error e) :
    Fault e ∨ p.Checked a ∧ p.checkCycles a = .error e := by
  simp only [check, bind_eq_error_iff] at h
  rcases h with h | ⟨_, h₁, h | ⟨_, h₂, h | ⟨_, h₃, h⟩⟩⟩
  · obtain ⟨n, -, h⟩ := exists_of_forM_eq_error h
    obtain ⟨x, -, h⟩ := exists_of_forM_eq_error h
    exact .inl (fault_checkOperand h)
  · obtain ⟨id, -, h⟩ := exists_of_forM_eq_error h
    exact .inl (fault_checkSource h)
  · obtain ⟨r, -, h⟩ := exists_of_forM_eq_error h
    exact .inl (fault_checkReplacement h)
  · exact .inr ⟨⟨checkOperands_eq_ok_iff.mp h₁, checkSources_eq_ok_iff.mp h₂,
      checkReplacements_eq_ok_iff.mp h₃⟩, h⟩

theorem not_fault_overflow : ¬ Fault .overflow := by
  intro h
  generalize he : GraphError.overflow = e at h
  cases h with
  | missing x => cases x <;> cases he
  | _ => cases he

theorem check_ne_overflow : p.check a ≠ .error .overflow := by
  intro h
  rcases check_eq_error_cases h with h | ⟨-, h⟩
  · exact not_fault_overflow h
  · obtain ⟨r, -, u, -, -, he⟩ := exists_of_checkCycles_eq_error h
    cases he

end TensorGraph.Plan
