import TensorGraph.Proofs.Pattern.Kinds
import TensorGraph.Proofs.Pattern.Soundness

/-! # What builders make

A builder runs after others, and uses terms that they have made. What it ensures of the term it
makes is read off its calls one by one; that every term is told apart by its label, and that all
operations in it are of the given kinds, comes with it.
-/

namespace TensorGraph.Builder

variable {P : Kind → Prop} {known inputs branches ts : List Term} {kinds : List Kind}
variable {guard : Guard} {t : Term} {b : Builder Term} {f : Term → Builder Term} {Q R : Term → Prop}

/-- The terms that were made so far, with operations of such kinds. -/
structure MadeOf (P : Kind → Prop) (ts : List Term) : Prop where
  made : Made ts
  wraps : ∀ t ∈ ts, t.Wraps P

theorem MadeOf.wrapsAll (h : MadeOf P ts) (hi : inputs ⊆ ts) : Term.WrapsAll P inputs :=
  Term.wrapsAll_iff.mpr fun t ht => h.wraps t (hi ht)

/-- Once the known terms are made, the builder makes a term with the property, and the terms that
it is made from. -/
def Ensures (P : Kind → Prop) (known : List Term) (b : Builder Term) (Q : Term → Prop) : Prop :=
  ∀ ts, MadeOf P ts → known ⊆ ts → ∃ us, MadeOf P us ∧ ts ⊆ us ∧ (b.run ts.length).1 ∈ us ∧
    (b.run ts.length).2 = us.length ∧ Q (b.run ts.length).1

theorem ensures_pure (ht : t ∈ known) (hQ : Q t) : Ensures P known (pure t) Q := by
  intro ts made hknown
  exact ⟨ts, made, List.Subset.refl ts, hknown ht, rfl, hQ⟩

theorem Ensures.bind (hb : Ensures P known b Q)
    (hf : ∀ t, Q t → Ensures P (t :: known) (f t) R) : Ensures P known (b >>= f) R := by
  intro ts made hknown
  obtain ⟨us, made, hus, hmem, hlength, hQ⟩ := hb ts made hknown
  have hnext := hf _ hQ us made (List.cons_subset.mpr ⟨hmem, List.Subset.trans hknown hus⟩)
  rw [← hlength] at hnext
  obtain ⟨ws, made, hws, hrest⟩ := hnext
  exact ⟨ws, made, List.Subset.trans hus hws, hrest⟩

theorem ensures_call (hb : ∀ ts, MadeOf P ts → known ⊆ ts →
      Made ((b.run ts.length).1 :: ts) ∧ (b.run ts.length).1.Wraps P ∧
        (b.run ts.length).2 = ts.length + 1 ∧ Q (b.run ts.length).1) : Ensures P known b Q := by
  intro ts made hknown
  obtain ⟨hmade, hwraps, hlength, hQ⟩ := hb ts made hknown
  refine ⟨_, ⟨hmade, ?_⟩, List.subset_cons_self _ _, List.mem_cons_self, hlength, hQ⟩
  exact List.forall_mem_cons.mpr ⟨hwraps, made.wraps⟩

theorem ensures_anyInput : Ensures P known anyInput fun _ => True :=
  ensures_call fun _ h _ => ⟨h.made.input .always, trivial, rfl, trivial⟩

theorem ensures_wrap (hk : ∀ k ∈ kinds, P k) (hi : inputs ⊆ known)
    (hQ : ∀ label, Q (.wrap label kinds inputs guard)) :
    Ensures P known (wrap kinds inputs guard) Q := by
  apply ensures_call
  intro ts h hknown
  have hts := List.Subset.trans hi hknown
  exact ⟨h.made.wrap kinds guard hts, ⟨hk, h.wrapsAll hts⟩, rfl, hQ _⟩

theorem ensures_optional (hk : ∀ k ∈ kinds, P k) (hi : inputs ⊆ known) :
    Ensures P known (Builder.optional kinds inputs guard) fun _ => True := by
  apply ensures_call
  intro ts h hknown
  have hts := List.Subset.trans hi hknown
  exact ⟨h.made.optional kinds guard hts, ⟨hk, h.wrapsAll hts⟩, rfl, trivial⟩

theorem ensures_oneOf (hb : branches ⊆ known) (hQ : ∀ label, Q (.oneOf label branches)) :
    Ensures P known (oneOf branches) Q := by
  apply ensures_call
  intro ts h hknown
  have hts := List.Subset.trans hb hknown
  exact ⟨h.made.oneOf hts, h.wrapsAll hts, rfl, hQ _⟩

theorem Ensures.finish (hb : Ensures P [] b Q) :
    b.finish.Built ∧ b.finish.root.Wraps P ∧ Q b.finish.root := by
  have hnone : MadeOf P [] := ⟨.start, fun _ ht => absurd ht List.not_mem_nil⟩
  obtain ⟨us, h, -, hmem, hlength, hQ⟩ := hb [] hnone (List.nil_subset _)
  exact ⟨⟨us, h.made, hmem, hlength⟩, h.wraps _ hmem, hQ⟩

end TensorGraph.Builder
