import TensorGraph.Pass.Pattern

/-! # Reshapes

A reshape to the shape that is there already is dropped. Two in a row become one if the second
alone leads from the source to the same shape.
-/

namespace TensorGraph.Reshape

def source : Term := .input 0 .always

def identityPattern : Pattern := ⟨.wrap 1 [.reshape] [source] .always, 2⟩

def eliminateIdentity : PatternPass where
  name := "eliminate-identity-reshape"
  pattern := identityPattern
  rewrite g m := Staging.toPlan do
    let source ← Staging.ofOption (m.value? 0)
    let before ← Staging.spec g source
    let after ← Staging.spec g m.root
    Staging.check (before.shape.isStatic && before == after)
    Staging.replace m.root source

def inner : Term := .wrap 1 [.reshape] [source] .always

/-- The target says nothing that is taken from the input, its element count apart. -/
def isSelfContained : Operation Body → Bool
  | .primitive (.reshape target specialZero) => !specialZero || !target.contains 0
  | _ => false

def chainPattern : Pattern :=
  ⟨.wrap 2 [.reshape] [inner] (.onOperation "no_special_zero" isSelfContained), 3⟩

def target? : Operation Body → Option (List Int)
  | .primitive (.reshape target _) => some target
  | _ => none

def collapseChain : PatternPass where
  name := "collapse-reshape-chain"
  pattern := chainPattern
  rewrite g m := Staging.toPlan do
    let source ← Staging.ofOption (m.value? 0)
    let target ← Staging.ofOption ((g.node? m.root.node).bind fun n => target? n.op)
    let folded ← Staging.makeValue g (Primitive.reshape target false) [source]
    let direct ← Staging.spec g folded
    let current ← Staging.spec g m.root
    Staging.check (direct == current)
    Staging.inherit [m.root.node]
    Staging.replace m.root folded

def canonicalize : Pass :=
  .both "reshape-canonicalize" eliminateIdentity.toPass collapseChain.toPass

end TensorGraph.Reshape
