import TensorGraph.Graph.Reach
import TensorGraph.Rewrite.Plan

/-! # Commits

A plan is checked as a whole and only then applied: `commit` either fails and leaves the
graph alone, or puts the staged nodes in, repoints what reads a replaced value and releases all
that is dead after that.
-/

namespace TensorGraph

variable {β : Type}

/-- What a commit did; the inserted nodes are in the order in which they were staged. -/
structure Commit where
  inserted : List NodeId
  replaced : Nat
  released : Nat

namespace Plan

/-- The operand of the staged node at an index is present or staged before it. -/
def checkOperand (p : Plan β) (a : Arena β) (index : Nat) (x : Operand) :
    Except GraphError Unit :=
  let present := match x with
    | .graph v => a.hasOutput v
    | .staged i _ => i < index && (p.spec? a x).isSome
  if present then .ok () else .error (missing x)

/-- Both ends of a replacement are present, differ and have the same element type. -/
def checkReplacement (p : Plan β) (a : Arena β) (v : Value) (x : Operand) :
    Except GraphError Unit := do
  let old ← p.operandSpec a v
  let new ← p.operandSpec a x
  if x = .graph v then throw (.selfReplacement v)
  if old.elementType ≠ new.elementType then
    throw (.elementTypeMismatch v old.elementType new.elementType)

def stagedInputs (p : Plan β) (index : Nat) : List Operand :=
  (p.staged[index]?.map StagedNode.inputs).getD []

def stagedIndex? : Operand → Option Nat
  | .graph _ => none
  | .staged index _ => some index

def graphNode? : Operand → Option NodeId
  | .graph v => some v.node
  | .staged _ _ => none

/-- The nodes of the graph that the operands read, directly or through staged nodes. -/
def graphRoots (p : Plan β) (operands : List Operand) : List NodeId :=
  let through := closure (fun i => (p.stagedInputs i).filterMap stagedIndex?)
    (List.range p.staged.length) (operands.filterMap stagedIndex?)
  (operands ++ through.flatMap p.stagedInputs).filterMap graphNode?

/-- Nothing that is to be repointed may be needed by what it is repointed to. -/
def checkCycles (p : Plan β) (a : Arena β) : Except GraphError Unit :=
  let dependencies := a.ancestors (p.graphRoots (p.replacements.map (·.2)))
  p.replacements.forM fun (v, _) =>
    match (a.uses v).find? fun u => u.node ∈ dependencies with
    | some u => .error (.cycleIntroduced v u.node)
    | none => .ok ()

def check (p : Plan β) (a : Arena β) : Except GraphError Unit := do
  p.staged.zipIdx.forM fun (n, index) => n.inputs.forM (p.checkOperand a index)
  p.sources.forM fun id => discard (a.node id)
  p.replacements.forM fun (v, x) => p.checkReplacement a v x
  p.checkCycles a

end Plan

/-- The value that an operand stands for once the staged nodes have these handles. -/
def Operand.resolve (inserted : List NodeId) : Operand → Value
  | .graph v => v
  | .staged index port => (inserted.getD index ⟨0, 0⟩).output port

namespace Arena

/-- Staged nodes put into slots, not wired yet. -/
def insertStaged (a : Arena β) (inherited : Annotations) :
    List (StagedNode β) → Arena β × List NodeId
  | [] => (a, [])
  | n :: rest =>
    let (a, id) := a.allocate (.fresh n.op n.outputs n.name (n.annotations.merge inherited))
    let (a, ids) := a.insertStaged inherited rest
    (a, id :: ids)

def nameIfEmpty (a : Arena β) (id : NodeId) (name : String) : Arena β :=
  a.modifyNode id.index fun n => if n.name.isEmpty then { n with name } else n

/-- A staged replacement without a name takes over the name of the node it replaces. -/
def inheritName (before a : Arena β) (inserted : List NodeId) (v : Value) (x : Operand) :
    Arena β :=
  match x, before.node? v.node with
  | .staged _ _, some n => a.nameIfEmpty (x.resolve inserted).node n.name
  | _, _ => a

def apply (a : Arena β) (p : Plan β) : Arena β × Commit :=
  let before := a
  let (a, inserted) := a.insertStaged (a.mergedAnnotations p.sources) p.staged
  let a := p.replacements.foldl (fun a (v, x) => a.repoint v (x.resolve inserted)) a
  let a := (inserted.zip p.staged).foldl (fun a (id, n) =>
    a.wire id (n.inputs.map (Operand.resolve inserted))) a
  let a := p.replacements.foldl (fun a (v, x) => inheritName before a inserted v x) a
  let (a, released) := a.releaseAll (p.replacements.map (·.1.node) ++ inserted)
  (a.bump, ⟨inserted, p.replacements.length, released⟩)

def commit (a : Arena β) (p : Plan β) : Except GraphError (Arena β × Commit) := do
  p.check a
  return a.apply p

/-- One value put in the place of another; counts what is released by that. -/
def replace (a : Arena β) (v w : Value) : Except GraphError (Arena β × Nat) := do
  let (a, done) ← a.commit (Plan.empty.replace v w)
  return (a, done.released)

end Arena

end TensorGraph
