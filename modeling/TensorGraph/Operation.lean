import TensorGraph.Primitive

/-! # Operations

An operation is a primitive one or a subgraph, which stands for a whole body. The type of bodies
is a parameter: graphs put graphs there, inference puts what it may know of a body.
-/

namespace TensorGraph

inductive Operation (β : Type) where
  | primitive (p : Primitive)
  | subgraph (body : β)

namespace Operation

variable {β γ : Type}

instance : Coe Primitive (Operation β) := ⟨primitive⟩

def kind : Operation β → Kind
  | primitive p => p.kind
  | subgraph _ => .subgraph

def map (f : β → γ) : Operation β → Operation γ
  | primitive p => primitive p
  | subgraph b => subgraph (f b)

def body? : Operation β → Option β
  | primitive _ => none
  | subgraph b => some b

def constant? : Operation β → Option Tensor
  | primitive (.constant t) => some t
  | _ => none

/-- The text of an operation; a body is described by its number of nodes. -/
def text (nodeCount : β → Nat) : Operation β → String
  | primitive p => p.text
  | subgraph b => Kind.subgraph.name ++ bracketed ["nodes=" ++ toString (nodeCount b)]

@[simp] theorem kind_map (f : β → γ) (op : Operation β) : (op.map f).kind = op.kind := by
  cases op <;> rfl

@[simp] theorem map_id (op : Operation β) : op.map id = op := by
  cases op <;> rfl

@[simp] theorem map_map {δ : Type} (g : γ → δ) (f : β → γ) (op : Operation β) :
    (op.map f).map g = op.map (g ∘ f) := by
  cases op <;> rfl

end Operation

end TensorGraph
