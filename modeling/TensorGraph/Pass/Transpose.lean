import TensorGraph.Pass.Pattern

/-! # Transposes

A transpose that keeps every axis in place is dropped, and two in a row become one.
-/

namespace TensorGraph.Transpose

def perm? : Operation Body → Option (List Nat)
  | .primitive (.transpose perm) => some perm
  | _ => none

/-- The permutation that does the work of `first` followed by `second`. -/
def compose? (first second : List Nat) : Option (List Nat) :=
  if first.length = second.length then second.mapM fun axis => first[axis]? else none

def isIdentity (op : Operation Body) : Bool := (perm? op).any isIdentityPermutation

def source : Term := .input 0 .always

def identityPattern : Pattern :=
  ⟨.wrap 1 [.transpose] [source] (.onOperation "identity_perm" isIdentity), 2⟩

def eliminateIdentity : PatternPass where
  name := "eliminate-identity-transpose"
  pattern := identityPattern
  rewrite _ m := Staging.toPlan do
    let source ← Staging.ofOption (m.value? 0)
    Staging.replace m.root source

def inner : Term := .wrap 1 [.transpose] [source] .always

def chainPattern : Pattern := ⟨.wrap 2 [.transpose] [inner] .always, 3⟩

def collapseChain : PatternPass where
  name := "collapse-transpose-chain"
  pattern := chainPattern
  rewrite g m := Staging.toPlan do
    let source ← Staging.ofOption (m.value? 0)
    let inner ← Staging.ofOption (m.value? 1)
    let first ← Staging.ofOption ((g.node? inner.node).bind fun n => perm? n.op)
    let second ← Staging.ofOption ((g.node? m.root.node).bind fun n => perm? n.op)
    let composed ← Staging.ofOption (compose? first second)
    if isIdentityPermutation composed then Staging.replace m.root source
    else
      let folded ← Staging.makeValue g (Primitive.transpose composed) [source]
      Staging.inherit [inner.node, m.root.node]
      Staging.replace m.root folded

def canonicalize : Pass :=
  .both "transpose-canonicalize" eliminateIdentity.toPass collapseChain.toPass

end TensorGraph.Transpose
