import TensorGraph.Proofs.Rewrite.Acceptance
import TensorGraph.Rewrite.Staging

/-! # Plans under construction

What the steps that make a plan add to it: staged nodes at the end, remarks on one of them, and
replacements.
-/

namespace TensorGraph.Plan

variable {β : Type} {p q : Plan β} {a : Arena β} {op : Operation β}
variable {inputs : List Operand} {k index : Nat}

theorem make_eq_ok_iff [Described β] : p.make a op inputs = .ok (q, k) ↔
    ∃ specs outputs, inputs.mapM (p.operandSpec a) = .ok specs ∧ a.infer op specs = .ok outputs ∧
      q = { p with staged := p.staged ++ [⟨op, inputs, outputs, "", .empty⟩] } ∧
      k = p.staged.length := by
  simp only [make, bind_eq_ok_iff]
  constructor
  · rintro ⟨specs, hspecs, outputs, houtputs, e⟩
    obtain ⟨rfl, rfl⟩ := Prod.mk.inj (Except.ok.inj e)
    exact ⟨specs, outputs, hspecs, houtputs, rfl, rfl⟩
  · rintro ⟨specs, outputs, hspecs, houtputs, rfl, rfl⟩
    exact ⟨specs, hspecs, outputs, houtputs, rfl⟩

theorem modifyStaged_eq_ok_iff {f : StagedNode β → StagedNode β} :
    p.modifyStaged index f = .ok q ↔
      index < p.staged.length ∧ q = { p with staged := p.staged.modify index f } := by
  unfold modifyStaged
  split
  · rename_i h
    exact ⟨fun e => ⟨h, (Except.ok.inj e).symm⟩, fun e => congrArg _ e.2.symm⟩
  · rename_i h
    exact ⟨nofun, fun e => absurd e.1 h⟩

structure Renamed (p q : Plan β) : Prop where
  staged : ∀ i : Nat, ∃ name, q.staged[i]? = (p.staged[i]?).map fun n => { n with name }
  replacements : q.replacements = p.replacements
  sources : q.sources = p.sources

theorem renamed_of_rename {name : String} (e : p.rename index name = .ok q) : p.Renamed q := by
  obtain ⟨-, rfl⟩ := modifyStaged_eq_ok_iff.mp e
  refine ⟨fun i => ?_, rfl, rfl⟩
  rw [List.getElem?_modify]
  by_cases hi : index = i
  · exact ⟨name, by simp only [if_pos hi, Option.map_eq_map]⟩
  · cases p.staged[i]? with
    | none => exact ⟨name, rfl⟩
    | some n => exact ⟨n.name, by simp only [if_neg hi, Option.map_eq_map, Option.map_some]⟩

namespace Renamed

variable (h : p.Renamed q)
include h

theorem exists_of_getElem? {m : StagedNode β} (hm : q.staged[k]? = some m) :
    ∃ n, p.staged[k]? = some n ∧ m = { n with name := m.name } := by
  obtain ⟨name, hname⟩ := h.staged k
  rw [hname] at hm
  obtain ⟨n, hn, rfl⟩ := Option.map_eq_some_iff.mp hm
  exact ⟨n, hn, rfl⟩

theorem exists_of_mem {m : StagedNode β} (hm : m ∈ q.staged) :
    ∃ n ∈ p.staged, m = { n with name := m.name } := by
  obtain ⟨i, hi⟩ := List.mem_iff_getElem?.mp hm
  obtain ⟨n, hn, hm⟩ := h.exists_of_getElem? hi
  exact ⟨n, List.mem_of_getElem? hn, hm⟩

theorem spec?_eq (x : Operand) : q.spec? a x = p.spec? a x := by
  cases x with
  | graph v => rfl
  | staged j port =>
    obtain ⟨name, hname⟩ := h.staged j
    simp only [spec?, hname]
    cases p.staged[j]? <;> rfl

theorem stagedInputs_eq (i : Nat) : q.stagedInputs i = p.stagedInputs i := by
  obtain ⟨name, hname⟩ := h.staged i
  rw [stagedInputs, hname, stagedInputs]
  cases p.staged[i]? <;> rfl

end Renamed

theorem foldl_replace (vs : List (Value × Nat)) (p : Plan β) (index : Nat) :
    vs.foldl (fun p (v, port) => p.replace v (.staged index port)) p =
      { p with replacements := p.replacements ++ vs.map fun x => (x.1, .staged index x.2) } := by
  induction vs generalizing p with
  | nil => rw [List.map_nil, List.append_nil, List.foldl_nil]
  | cons x vs ih =>
    rw [List.foldl_cons, ih, List.map_cons]
    simp only [replace, List.append_assoc, List.singleton_append]

theorem mem_inherit_iff {sources : List NodeId} {id : NodeId} :
    id ∈ (p.inherit sources).sources ↔ id ∈ p.sources ∨ id ∈ sources := by
  unfold inherit
  generalize p.sources = known
  dsimp only
  induction sources generalizing known with
  | nil => simp
  | cons source sources ih =>
    rw [List.foldl_cons, ih, List.mem_cons]
    split
    · rename_i h
      have hknown := List.contains_iff_mem.mp h
      constructor
      · exact fun hid => hid.imp_right .inr
      · rintro (hid | rfl | hid)
        · exact .inl hid
        · exact .inl hknown
        · exact .inr hid
    · rw [List.mem_append, List.mem_singleton, or_assoc]

end TensorGraph.Plan

namespace TensorGraph.Attempt

variable {α : Type} {o : Option α} {x : Except GraphError α} {a : α}

theorem ofOption_eq_ok_iff : ofOption o = .ok a ↔ o = some a := by
  cases o <;> simp [ofOption]

theorem optional_eq_some_iff {x : Attempt α} : x.optional = .ok (some a) ↔ x = .ok a := by
  rcases x with (_ | _) | b <;> simp [optional]

theorem optional_eq_none_iff {x : Attempt α} : x.optional = .ok none ↔ x = .error .declined := by
  rcases x with (_ | _) | b <;> simp [optional]

theorem ofEdit_eq_ok_iff : ofEdit x = .ok a ↔ x = .ok a := by
  unfold ofEdit
  split <;> simp

theorem ofEdit_eq_overflow_iff : ofEdit x = .error .overflow ↔ x = .error .overflow := by
  unfold ofEdit
  split <;> simp_all

end TensorGraph.Attempt

namespace TensorGraph.Staging

variable {α γ : Type} {p q : Plan Body} {g : Graph} {s : Staging α} {a : α}

theorem toPlan_eq_ok_iff {s : Staging Unit} : s.toPlan = .ok q ↔ s .empty = .ok ((), q) := by
  rw [toPlan, map_eq_ok_iff]
  exact ⟨fun ⟨⟨(), _⟩, h, e⟩ => e ▸ h, fun h => ⟨_, h, rfl⟩⟩

theorem bind_ok_iff {f : α → Staging γ} {r : γ × Plan Body} :
    (s >>= f) p = .ok r ↔ ∃ a q, s p = .ok (a, q) ∧ f a q = .ok r := by
  refine bind_eq_ok_iff.trans ?_
  rw [Prod.exists]

theorem ofAttempt_eq_ok_iff {x : Attempt α} :
    ofAttempt x p = .ok (a, q) ↔ x = .ok a ∧ q = p := by
  rw [ofAttempt, map_eq_ok_iff]
  constructor
  · rintro ⟨b, rfl, e⟩
    obtain ⟨rfl, rfl⟩ := Prod.mk.inj e
    exact ⟨rfl, rfl⟩
  · rintro ⟨rfl, rfl⟩
    exact ⟨a, rfl, rfl⟩

theorem ofOption_eq_ok_iff {o : Option α} :
    ofOption o p = .ok (a, q) ↔ o = some a ∧ q = p := by
  rw [ofOption, ofAttempt_eq_ok_iff, Attempt.ofOption_eq_ok_iff]

theorem check_eq_ok_iff {condition : Bool} {u : Unit} :
    check condition p = .ok (u, q) ↔ condition = true ∧ q = p := by
  cases condition with
  | false => exact ⟨nofun, nofun⟩
  | true =>
    refine ⟨fun e => ⟨rfl, (Prod.mk.inj (Except.ok.inj e)).2.symm⟩, ?_⟩
    rintro ⟨-, rfl⟩
    rfl

theorem spec_eq_ok_iff {x : Operand} {r : Spec} :
    spec g x p = .ok (r, q) ↔ p.spec? g x = some r ∧ q = p := ofOption_eq_ok_iff

theorem renamed_of_eq_ok {k : Nat} {name : String} {u : Unit}
    (e : rename k name p = .ok (u, q)) : p.Renamed q := by
  obtain ⟨r, hr, e⟩ := map_eq_ok_iff.mp e
  obtain ⟨-, rfl⟩ := Prod.mk.inj e
  exact Plan.renamed_of_rename (Attempt.ofEdit_eq_ok_iff.mp hr)

theorem make_eq_ok_iff {op : Operation Body} {inputs : List Operand} {k : Nat} :
    make g op inputs p = .ok (k, q) ↔ p.make g op inputs = .ok (q, k) := by
  rw [make, map_eq_ok_iff]
  constructor
  · rintro ⟨⟨r, index⟩, h, e⟩
    obtain ⟨rfl, rfl⟩ := Prod.mk.inj e
    exact Attempt.ofEdit_eq_ok_iff.mp h
  · exact fun h => ⟨_, Attempt.ofEdit_eq_ok_iff.mpr h, rfl⟩

theorem makeValue_eq_ok_iff {op : Operation Body} {inputs : List Operand} {x : Operand} :
    makeValue g op inputs p = .ok (x, q) ↔
      ∃ k, p.make g op inputs = .ok (q, k) ∧ x = .staged k 0 := by
  refine bind_ok_iff.trans ⟨?_, ?_⟩
  · rintro ⟨k, r, hk, e⟩
    obtain ⟨rfl, rfl⟩ := Prod.mk.inj (Except.ok.inj e)
    exact ⟨k, make_eq_ok_iff.mp hk, rfl⟩
  · rintro ⟨k, hk, rfl⟩
    exact ⟨k, q, make_eq_ok_iff.mpr hk, rfl⟩

theorem inherit_eq_ok_iff {sources : List NodeId} {u : Unit} :
    inherit sources p = .ok (u, q) ↔ q = p.inherit sources :=
  ⟨fun e => (Prod.mk.inj (Except.ok.inj e)).2.symm, fun e => e ▸ rfl⟩

theorem replace_eq_ok_iff {v : Value} {x : Operand} {u : Unit} :
    replace v x p = .ok (u, q) ↔ q = p.replace v x :=
  ⟨fun e => (Prod.mk.inj (Except.ok.inj e)).2.symm, fun e => e ▸ rfl⟩

end TensorGraph.Staging
