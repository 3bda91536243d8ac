import TensorGraph.Graph.Inference

/-! # Rewrite plans

A plan collects new nodes and the replacements that they are for. Nothing of it touches the
graph before it is committed.
-/

namespace TensorGraph

/-- An input of a staged node: a value of the graph or an output of an earlier staged node. -/
inductive Operand where
  | graph (v : Value)
  | staged (index port : Nat)
deriving DecidableEq

instance : Coe Value Operand := ⟨.graph⟩

structure StagedNode (β : Type) where
  op : Operation β
  inputs : List Operand
  outputs : List Spec
  name : String
  annotations : Annotations

structure Plan (β : Type) where
  staged : List (StagedNode β)
  /-- Values with what is to be read instead of them. -/
  replacements : List (Value × Operand)
  /-- Nodes whose annotations every staged node inherits. -/
  sources : List NodeId

namespace Plan

variable {β : Type}

def empty : Plan β := ⟨[], [], []⟩

/-- Without replacements a commit would change nothing. -/
def isEmpty (p : Plan β) : Bool := p.replacements.isEmpty

def spec? (p : Plan β) (a : Arena β) : Operand → Option Spec
  | .graph v => a.spec? v
  | .staged index port => do (← p.staged[index]?).outputs[port]?

/-- The error for an operand that is not there. -/
def missing : Operand → GraphError
  | .graph v => .unknownOutput v
  | .staged index _ => .unknownStaged index

def operandSpec (p : Plan β) (a : Arena β) (x : Operand) : Except GraphError Spec :=
  match p.spec? a x with
  | some spec => .ok spec
  | none => .error (missing x)

/-- One more staged node, with outputs inferred on the operands. -/
def make [Described β] (p : Plan β) (a : Arena β) (op : Operation β)
    (inputs : List Operand) : Except GraphError (Plan β × Nat) := do
  let specs ← inputs.mapM (p.operandSpec a)
  let outputs ← a.infer op specs
  return ({ p with staged := p.staged ++ [⟨op, inputs, outputs, "", .empty⟩] }, p.staged.length)

def modifyStaged (p : Plan β) (index : Nat) (f : StagedNode β → StagedNode β) :
    Except GraphError (Plan β) :=
  if index < p.staged.length then .ok { p with staged := p.staged.modify index f }
  else .error (.unknownStaged index)

def rename (p : Plan β) (index : Nat) (name : String) : Except GraphError (Plan β) :=
  p.modifyStaged index fun n => { n with name }

def annotate (p : Plan β) (index : Nat) (key value : String) :
    Except GraphError (Plan β) :=
  p.modifyStaged index fun n => { n with annotations := n.annotations.insert key value }

/-- All that reads the value is to read the operand instead. -/
def replace (p : Plan β) (v : Value) (x : Operand) : Plan β :=
  { p with replacements := p.replacements ++ [(v, x)] }

def inherit (p : Plan β) (sources : List NodeId) : Plan β :=
  { p with sources := sources.foldl (fun known id =>
      if known.contains id then known else known ++ [id]) p.sources }

end Plan

end TensorGraph
