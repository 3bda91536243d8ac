import TensorGraph.Inference.Rule

/-! # Capability tables

A table says for each kind how many inputs it accepts and by which rule its outputs are inferred.
The standard table covers every kind.
-/

namespace TensorGraph

structure Capability where
  arity : Arity
  rule : Rule

/-- What the standard table holds for a kind. -/
def Capability.standard : Kind → Capability
  | .parameter => ⟨.exactly 0, .parameter⟩
  | .constant => ⟨.exactly 0, .constant⟩
  | .result => ⟨.exactly 1, .result⟩
  | .add | .subtract | .multiply => ⟨.exactly 2, .arithmetic⟩
  | .equal | .notEqual => ⟨.exactly 2, .comparison⟩
  | .matMul => ⟨.exactly 2, .matMul⟩
  | .fullyConnected => ⟨⟨2, some 3⟩, .fullyConnected⟩
  | .transpose => ⟨.exactly 1, .transpose⟩
  | .reshape => ⟨.exactly 1, .reshape⟩
  | .softmax => ⟨.exactly 1, .softmax⟩
  | .convert => ⟨.exactly 1, .convert⟩
  | .quantize => ⟨.exactly 1, .quantize⟩
  | .dequantize => ⟨.exactly 1, .dequantize⟩
  | .unique => ⟨.exactly 1, .unique⟩
  | .shapeOf => ⟨.exactly 1, .shapeOf⟩
  | .squeeze => ⟨.exactly 1, .squeeze⟩
  | .unsqueeze => ⟨.exactly 1, .unsqueeze⟩
  | .topK => ⟨.exactly 2, .topK⟩
  | .concat => ⟨⟨1, none⟩, .concat⟩
  | .select => ⟨.exactly 3, .select⟩
  | .slice => ⟨.exactly 1, .slice⟩
  | .nonZero => ⟨.exactly 1, .nonZero⟩
  | .gather => ⟨.exactly 2, .gather⟩
  | .range => ⟨.exactly 3, .range⟩
  | .reduceMin | .reduceMax => ⟨.exactly 1, .reduce⟩
  | .subgraph => ⟨⟨0, none⟩, .subgraph⟩

structure CapabilityTable where
  find? : Kind → Option Capability

namespace CapabilityTable

def empty : CapabilityTable := ⟨fun _ => none⟩

def standard : CapabilityTable := ⟨fun kind => some (.standard kind)⟩

/-- The table in which the capability takes the place of any other of that kind. -/
def register (t : CapabilityTable) (kind : Kind) (capability : Capability) : CapabilityTable :=
  ⟨fun k => if k = kind then some capability else t.find? k⟩

/-- The specs of the outputs of an operation on inputs of these specs. -/
def infer (t : CapabilityTable) (op : Operation Interface) (inputs : List Spec) :
    Except GraphError (List Spec) :=
  match t.find? op.kind with
  | none => .error (.shapeInference op.kind .unregistered)
  | some capability =>
    if capability.arity.accepts inputs.length then
      match capability.rule op inputs with
      | .ok outputs => .ok outputs
      | .error e => .error (.ofInference op.kind e)
    else .error (.inputArity op.kind capability.arity inputs.length)

end CapabilityTable

end TensorGraph
