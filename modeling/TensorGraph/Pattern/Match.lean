import TensorGraph.Pattern.Basic

/-! # Matching

A term is matched from its root towards the inputs. Bindings are kept with the newest first; an
alternative that fails leaves the bindings as they were before it.
-/

namespace TensorGraph

structure Binding where
  label : Nat
  value : Value
  /-- The producer of the value belongs to what is matched. -/
  isOperation : Bool
deriving DecidableEq

abbrev Bindings := List Binding

def Bindings.value? (bs : Bindings) (label : Nat) : Option Value :=
  (bs.find? fun b => b.label == label).map Binding.value

/-- The inputs of the producer of a value, if it is an operation of one of the kinds, has the
number of inputs that is asked for, and the value passes the guard. -/
def Graph.operands? (g : Graph) (kinds : List Kind) (arity : Nat) (guard : Guard)
    (v : Value) : Option (List Value) :=
  match g.node? v.node with
  | none => none
  | some n =>
    if kinds.contains n.kind && v.port < n.outputs.length
        && (arity == 0 || n.inputs.length == arity) && guard.test g v then
      some n.inputs
    else none

namespace Term

mutual
/-- Whether the term matches the value under the bindings so far, and the bindings after that. -/
def matchValue (g : Graph) : Term → Value → Bindings → Bool × Bindings
  | input label guard, v, bs =>
    match bs.value? label with
    | some w => (w == v, bs)
    | none =>
      if g.hasOutput v && guard.test g v then (true, ⟨label, v, false⟩ :: bs) else (false, bs)
  | wrap label kinds inputs guard, v, bs =>
    match bs.value? label with
    | some w => (w == v, bs)
    | none =>
      match g.operands? kinds inputs.length guard v with
      | some operands => matchInputs g inputs operands (⟨label, v, true⟩ :: bs)
      | none => (false, bs)
  | optional label kinds inputs guard, v, bs =>
    match bs.value? label with
    | some w => (w == v, bs)
    | none =>
      match g.operands? kinds inputs.length guard v with
      | some operands =>
        match matchInputs g inputs operands (⟨label, v, true⟩ :: bs) with
        | (true, bound) => (true, bound)
        | (false, _) => matchHead g inputs v bs
      | none => matchHead g inputs v bs
  | oneOf _ branches, v, bs => matchBranches g branches v bs

/-- All terms against the values at their places, until one fails. -/
def matchInputs (g : Graph) : List Term → List Value → Bindings → Bool × Bindings
  | t :: ts, v :: vs, bs =>
    match t.matchValue g v bs with
    | (true, bound) => matchInputs g ts vs bound
    | (false, bound) => (false, bound)
  | _, _, bs => (true, bs)

def matchHead (g : Graph) : List Term → Value → Bindings → Bool × Bindings
  | [], _, bs => (false, bs)
  | t :: _, v, bs => t.matchValue g v bs

/-- The first term that matches the value. -/
def matchBranches (g : Graph) : List Term → Value → Bindings → Bool × Bindings
  | [], _, bs => (false, bs)
  | t :: ts, v, bs =>
    match t.matchValue g v bs with
    | (true, bound) => (true, bound)
    | (false, _) => matchBranches g ts v bs
end

end Term

/-- A successful match, with its bindings in the order in which they were made. -/
structure Match where
  root : Value
  bindings : Bindings

namespace Match

def value? (m : Match) (label : Nat) : Option Value := m.bindings.value? label

/-- The producers of all values bound by operations, each once, in the order of binding. -/
def nodes (m : Match) : List NodeId :=
  ((m.bindings.filter Binding.isOperation).map fun b => b.value.node).eraseDups

end Match

namespace Pattern

def matchOutput (p : Pattern) (g : Graph) (v : Value) : Option Match :=
  match p.root.matchValue g v [] with
  | (true, bs) => some ⟨v, bs.reverse⟩
  | (false, _) => none

def matchNode (p : Pattern) (g : Graph) (id : NodeId) : Option Match :=
  match g.node? id with
  | none => none
  | some n => if n.outputs.isEmpty then none else p.matchOutput g (id.output 0)

end Pattern

end TensorGraph
