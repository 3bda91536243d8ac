import TensorGraph.Pattern.Guard

/-! # Patterns

A pattern is a term of placeholders. Every placeholder has a label; one that stands at several
places of a term has the same label there and means the same value at all of them. The builder
hands out the labels.
-/

namespace TensorGraph

inductive Term where
  /-- Any value that passes the guard. -/
  | input (label : Nat) (guard : Guard)
  /-- A value of an operation of one of the kinds. Unless no inputs are given, its inputs match
  the given ones in order. -/
  | wrap (label : Nat) (kinds : List Kind) (inputs : List Term) (guard : Guard)
  /-- The same, or else whatever matches the first of the given inputs. -/
  | optional (label : Nat) (kinds : List Kind) (inputs : List Term) (guard : Guard)
  /-- What matches one of the branches; the first that matches counts. -/
  | oneOf (label : Nat) (branches : List Term)

namespace Term

def label : Term → Nat
  | input label _ | wrap label _ _ _ | optional label _ _ _ | oneOf label _ => label

mutual
/-- The kinds that the producer of a matching value may have; `none` if it may have any. -/
def kinds? : Term → Option (List Kind)
  | input _ _ => none
  | wrap _ kinds _ _ => some kinds
  | optional _ kinds inputs _ => (headKinds? inputs).map (kinds ++ ·)
  | oneOf _ branches => branchKinds? branches

def headKinds? : List Term → Option (List Kind)
  | [] => some []
  | t :: _ => t.kinds?

def branchKinds? : List Term → Option (List Kind)
  | [] => some []
  | t :: ts => do return (← t.kinds?) ++ (← branchKinds? ts)
end

end Term

structure Pattern where
  root : Term
  /-- The number of placeholders that were made. -/
  size : Nat

/-- The kinds that a root may have, each once; `none` if it may have any. -/
def Pattern.rootKinds? (p : Pattern) : Option (List Kind) := p.root.kinds?.map List.eraseDups

/-- Builders count the labels that are in use. -/
abbrev Builder := StateM Nat

namespace Builder

def fresh : Builder Nat := modifyGet fun n => (n, n + 1)

def input (guard : Guard) : Builder Term := do return .input (← fresh) guard

def anyInput : Builder Term := input .always

def wrap (kinds : List Kind) (inputs : List Term) (guard : Guard) : Builder Term := do
  return .wrap (← fresh) kinds inputs guard

def optional (kinds : List Kind) (inputs : List Term) (guard : Guard) : Builder Term := do
  return .optional (← fresh) kinds inputs guard

def oneOf (branches : List Term) : Builder Term := do return .oneOf (← fresh) branches

def finish (b : Builder Term) : Pattern :=
  let (root, size) := b.run 0
  ⟨root, size⟩

end Builder

end TensorGraph
