import TensorGraph.Handle
import TensorGraph.Kind
import TensorGraph.Shape

/-! # Errors

Why inference, an edit of a graph or a run of passes fails. The constructors are the causes, and
`message` is their wording.
-/

namespace TensorGraph

/-- The items of a list between brackets. -/
def bracketed (items : List String) : String := "[" ++ ", ".intercalate items ++ "]"

def intsText (xs : List Int) : String := bracketed (xs.map toString)

def natsText (xs : List Nat) : String := bracketed (xs.map toString)

mutual
/-- Why an inference rule rejects its inputs. -/
inductive InferError where
  | unregistered
  | inapplicable (kind : Kind)
  | missingInput
  | operands (expected : String)
  | indexType (got : ElementType)
  | broadcast (left right : Shape) (a b : Nat)
  | operandTypes (left right : ElementType)
  | matrixRank (left right : Shape)
  | contraction (left right : Extent)
  | unrankedWeights
  | weightsRank (got : Shape)
  | biasCount (got expected : Nat)
  | scalarData
  | notPermutation (perm : List Nat)
  | permutationRank (perm : List Nat) (rank : Nat)
  | repeatedWildcard (target : List Int)
  | reshapeTarget (target : List Int)
  | reshapeSource (position : Nat)
  | reshapeWildcard (input : Shape) (target : List Int)
  | reshapeCount (input : Shape) (total : Nat) (target : List Int)
  | softmaxType (got : ElementType)
  | axisOfShape (axis : Int) (shape : Shape)
  | axisOfRank (axis : Int) (rank : Nat)
  | axisRange (axis : Int)
  | axisRepeated (axis : Int)
  | quantizeInput (got : ElementType)
  | quantizeOutput (got : ElementType)
  | dequantizeInput (got : ElementType)
  | quantizationScale
  | squeezeExtent (axis : Int) (shape : Shape)
  | unsqueezeSource
  | sortCountType (got : ElementType)
  | sortCountShape (got : Shape)
  | concatTypes
  | concatRanks
  | concatExtents (position : Nat)
  | conditionType (got : ElementType)
  | branchTypes (left right : ElementType)
  | sliceStep
  | gatherIndices (got : ElementType)
  | rangeBounds (got : Shape)
  | outputCount (before after : Nat)
  | parameterType (position : Nat) (expected got : ElementType)
  | bodyInputs (cause : GraphError)
  | bodyInference (cause : GraphError)
  | custom (text : String)
  | within (context : String) (cause : InferError)
  | overflow

/-- Why an edit of a graph is refused. -/
inductive GraphError where
  | unknownNode (node : NodeId)
  | unknownOutput (output : Value)
  | unknownStaged (index : Nat)
  | inputArity (kind : Kind) (expected : Arity) (actual : Nat)
  | shapeInference (kind : Kind) (reason : InferError)
  | constantPayload (expected actual : Nat)
  | elementTypeMismatch (replaced : Value) (expected actual : ElementType)
  | selfReplacement (output : Value)
  | cycleIntroduced (replaced : Value) (consumer : NodeId)
  | cyclic (node : NodeId)
  | consumerMismatch (output : Value)
  | overflow
end

mutual
def InferError.message : InferError → String
  | .unregistered => "no capability registered"
  | .inapplicable kind => "rule does not apply to " ++ kind.name
  | .missingInput => "an input is missing"
  | .operands expected => "expected " ++ expected
  | .indexType got => "index type must be i32 or i64, got " ++ got.name
  | .broadcast left right a b =>
    "cannot broadcast " ++ left.text ++ " with " ++ right.text ++ ": extent " ++ toString a
      ++ " vs " ++ toString b
  | .operandTypes left right => "operand types differ: " ++ left.name ++ " vs " ++ right.name
  | .matrixRank left right =>
    "matmul operands need rank >= 2, got " ++ left.text ++ " and " ++ right.text
  | .contraction left right =>
    "contraction extents differ: " ++ left.text ++ " vs " ++ right.text
  | .unrankedWeights => "weights need a static rank"
  | .weightsRank got => "weights must be [N, K], got " ++ got.text
  | .biasCount got expected =>
    "bias holds " ++ toString got ++ " values, expected " ++ toString expected
  | .scalarData => "data must have rank >= 1"
  | .notPermutation perm => natsText perm ++ " is not a permutation"
  | .permutationRank perm rank =>
    "permutation " ++ natsText perm ++ " does not fit rank " ++ toString rank
  | .repeatedWildcard target => "at most one -1 allowed in " ++ intsText target
  | .reshapeTarget target => "invalid reshape target " ++ intsText target
  | .reshapeSource position => "zero at " ++ toString position ++ " has no source dimension"
  | .reshapeWildcard input target =>
    "cannot reshape " ++ input.text ++ " into " ++ intsText target
  | .reshapeCount input total target =>
    "cannot reshape " ++ input.text ++ " (" ++ toString total ++ " elements) into "
      ++ intsText target
  | .softmaxType got => "softmax needs a floating input, got " ++ got.name
  | .axisOfShape axis shape => "axis " ++ toString axis ++ " out of range for " ++ shape.text
  | .axisOfRank axis rank =>
    "axis " ++ toString axis ++ " out of range for rank " ++ toString rank
  | .axisRange axis => "axis " ++ toString axis ++ " out of range"
  | .axisRepeated axis => "axis " ++ toString axis ++ " repeated"
  | .quantizeInput got => "quantize needs a floating input, got " ++ got.name
  | .quantizeOutput got => "quantize output must be 8-bit, got " ++ got.name
  | .dequantizeInput got => "dequantize needs an integer input, got " ++ got.name
  | .quantizationScale => "quantization scale must be positive"
  | .squeezeExtent axis shape => "cannot squeeze axis " ++ toString axis ++ " of " ++ shape.text
  | .unsqueezeSource => "unsqueeze ran out of source axes"
  | .sortCountType got => "k must be an integer, got " ++ got.name
  | .sortCountShape got => "k must hold a single value, got " ++ got.text
  | .concatTypes => "concat operands must share an element type"
  | .concatRanks => "concat operands must share a rank"
  | .concatExtents position => "concat operands disagree on axis " ++ toString position
  | .conditionType got => "condition must be boolean, got " ++ got.name
  | .branchTypes left right => "branch types differ: " ++ left.name ++ " vs " ++ right.name
  | .sliceStep => "slice step must not be zero"
  | .gatherIndices got => "indices must be integers, got " ++ got.name
  | .rangeBounds got => "range bounds must be scalars, got " ++ got.text
  | .outputCount before after =>
    "output count changed from " ++ toString before ++ " to " ++ toString after
  | .parameterType position expected got =>
    "parameter " ++ toString position ++ " expects " ++ expected.name ++ ", got " ++ got.name
  | .bodyInputs cause => "subgraph inputs do not fit the body: " ++ cause.message
  | .bodyInference cause => "subgraph body failed inference: " ++ cause.message
  | .custom text => text
  | .within context cause => context ++ ": " ++ cause.message
  | .overflow => "arithmetic overflow"

def GraphError.message : GraphError → String
  | .unknownNode node => "node " ++ node.text ++ " is not part of the graph"
  | .unknownOutput output => "output " ++ output.text ++ " does not exist"
  | .unknownStaged index =>
    "staged node #" ++ toString index ++ " is not part of this rewrite"
  | .inputArity kind expected actual =>
    kind.name ++ " accepts " ++ expected.text ++ " inputs, got " ++ toString actual
  | .shapeInference kind reason =>
    "shape inference for " ++ kind.name ++ " failed: " ++ reason.message
  | .constantPayload expected actual =>
    "constant payload holds " ++ toString actual ++ " values but its shape requires "
      ++ toString expected
  | .elementTypeMismatch replaced expected actual =>
    "cannot replace " ++ replaced.text ++ " (" ++ expected.name ++ ") with a value of type "
      ++ actual.name
  | .selfReplacement output => "output " ++ output.text ++ " cannot replace itself"
  | .cycleIntroduced replaced consumer =>
    "replacing " ++ replaced.text ++ " would make " ++ consumer.text
      ++ " depend on its own result"
  | .cyclic node => "graph contains a cycle through " ++ node.text
  | .consumerMismatch output => "consumer bookkeeping of " ++ output.text ++ " is inconsistent"
  | .overflow => "arithmetic overflow"
end

/-- A failed inference as the failure of an edit. An overflow ends the program, wherever it is. -/
def GraphError.ofInference (kind : Kind) : InferError → GraphError
  | .overflow => .overflow
  | reason => .shapeInference kind reason

/-- The failure to infer a body as the failure of the inference around it. -/
def InferError.ofBody : GraphError → InferError
  | .overflow => .overflow
  | cause => .bodyInference cause

/-- Why a run of passes is given up. -/
inductive TransformError where
  | invariantViolation (pass : String) (root : Option NodeId) (cause : GraphError)
  | nonConvergence (sweeps : Nat) (changed : List String)
  | overflow

def TransformError.message : TransformError → String
  | .invariantViolation pass root cause =>
    let place := match root with
      | some node => " at " ++ node.text
      | none => ""
    "pass `" ++ pass ++ "` broke a graph invariant" ++ place ++ ": " ++ cause.message
  | .nonConvergence sweeps changed =>
    "pass manager did not converge after " ++ toString sweeps ++ " sweeps (still changing: "
      ++ ", ".intercalate changed ++ ")"
  | .overflow => "arithmetic overflow"

/-- A failed edit as the failure of a pass. -/
def TransformError.ofEdit (pass : String) (root : Option NodeId) : GraphError → TransformError
  | .overflow => .overflow
  | cause => .invariantViolation pass root cause

end TensorGraph
