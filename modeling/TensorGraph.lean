import TensorGraph.Attempt
import TensorGraph.Attention.Fusion
import TensorGraph.Attention.Island
import TensorGraph.Attention.Motif
import TensorGraph.Attention.Pass
import TensorGraph.Attention.Selection
import TensorGraph.Decimal.Format
import TensorGraph.Decimal.Shortest
import TensorGraph.ElementType
import TensorGraph.Error
import TensorGraph.Graph.Annotations
import TensorGraph.Graph.Basic
import TensorGraph.Graph.Body
import TensorGraph.Graph.Edit
import TensorGraph.Graph.Inference
import TensorGraph.Graph.Order
import TensorGraph.Graph.Ranking
import TensorGraph.Graph.Reach
import TensorGraph.Graph.Release
import TensorGraph.Graph.Text
import TensorGraph.Graph.Validity
import TensorGraph.Handle
import TensorGraph.Inference.Basic
import TensorGraph.Inference.Capability
import TensorGraph.Inference.Elementwise
import TensorGraph.Inference.Indexing
import TensorGraph.Inference.Layout
import TensorGraph.Inference.Matrix
import TensorGraph.Inference.Rule
import TensorGraph.Kind
import TensorGraph.Operation
import TensorGraph.Pass.Basic
import TensorGraph.Pass.BiasFusion
import TensorGraph.Pass.ConstantFolding
import TensorGraph.Pass.Pattern
import TensorGraph.Pass.Pipeline
import TensorGraph.Pass.Reshape
import TensorGraph.Pass.Standard
import TensorGraph.Pass.Transpose
import TensorGraph.Pass.UniqueLowering
import TensorGraph.Pattern.Basic
import TensorGraph.Pattern.Guard
import TensorGraph.Pattern.Match
import TensorGraph.Primitive
import TensorGraph.Proofs.Arena.Allocation
import TensorGraph.Proofs.Arena.Annotations
import TensorGraph.Proofs.Arena.LeastOrder
import TensorGraph.Proofs.Arena.Lookup
import TensorGraph.Proofs.Arena.Order
import TensorGraph.Proofs.Arena.Precedence
import TensorGraph.Proofs.Arena.Reach
import TensorGraph.Proofs.Arena.Release
import TensorGraph.Proofs.Arena.Retention
import TensorGraph.Proofs.Arena.Validity
import TensorGraph.Proofs.Arena.WellFormed
import TensorGraph.Proofs.Arena.Wiring
import TensorGraph.Proofs.Attention.Boundary
import TensorGraph.Proofs.Attention.Collapse
import TensorGraph.Proofs.Attention.Convexity
import TensorGraph.Proofs.Attention.Detours
import TensorGraph.Proofs.Attention.Exclusion
import TensorGraph.Proofs.Attention.Island
import TensorGraph.Proofs.Attention.Mirroring
import TensorGraph.Proofs.Attention.Motif
import TensorGraph.Proofs.Attention.Progress
import TensorGraph.Proofs.Attention.Provenance
import TensorGraph.Proofs.Attention.Recognition
import TensorGraph.Proofs.Attention.Remainder
import TensorGraph.Proofs.Attention.Removal
import TensorGraph.Proofs.Attention.Run
import TensorGraph.Proofs.Attention.Transcript
import TensorGraph.Proofs.Attention.Variants
import TensorGraph.Proofs.Exact.Arrays
import TensorGraph.Proofs.Exact.Grid
import TensorGraph.Proofs.Exact.Numeric
import TensorGraph.Proofs.Exact.Occurrences
import TensorGraph.Proofs.Exact.Product
import TensorGraph.Proofs.Exact.Wrapped
import TensorGraph.Proofs.Inference.Agreement
import TensorGraph.Proofs.Inference.Bodies
import TensorGraph.Proofs.Inference.Drift
import TensorGraph.Proofs.Inference.Elementwise
import TensorGraph.Proofs.Inference.Folding
import TensorGraph.Proofs.Inference.Indexing
import TensorGraph.Proofs.Inference.Layout
import TensorGraph.Proofs.Inference.Matrix
import TensorGraph.Proofs.Inference.Monotonicity
import TensorGraph.Proofs.Inference.Overflow
import TensorGraph.Proofs.Inference.Preservation
import TensorGraph.Proofs.Inference.Recorded
import TensorGraph.Proofs.Inference.Refinement
import TensorGraph.Proofs.Inference.Revalidation
import TensorGraph.Proofs.Inference.Slicing
import TensorGraph.Proofs.Inference.Soundness
import TensorGraph.Proofs.Inference.Types
import TensorGraph.Proofs.Inference.Typing
import TensorGraph.Proofs.Meaning.Attention
import TensorGraph.Proofs.Meaning.Copying
import TensorGraph.Proofs.Meaning.Evaluation
import TensorGraph.Proofs.Meaning.Rewriting
import TensorGraph.Proofs.Meaning.Valuation
import TensorGraph.Proofs.Pass.Anchors
import TensorGraph.Proofs.Pass.Balance
import TensorGraph.Proofs.Pass.Builtin
import TensorGraph.Proofs.Pass.Canonicalization
import TensorGraph.Proofs.Pass.Cascade
import TensorGraph.Proofs.Pass.Changes
import TensorGraph.Proofs.Pass.Confinement
import TensorGraph.Proofs.Pass.Convergence
import TensorGraph.Proofs.Pass.Declining
import TensorGraph.Proofs.Pass.Descent
import TensorGraph.Proofs.Pass.Drift
import TensorGraph.Proofs.Pass.Enactment
import TensorGraph.Proofs.Pass.Evaluation
import TensorGraph.Proofs.Pass.FixedPoint
import TensorGraph.Proofs.Pass.Fusion
import TensorGraph.Proofs.Pass.FusionSpecs
import TensorGraph.Proofs.Pass.FusionValues
import TensorGraph.Proofs.Pass.Handles
import TensorGraph.Proofs.Pass.History
import TensorGraph.Proofs.Pass.Knowledge
import TensorGraph.Proofs.Pass.Locality
import TensorGraph.Proofs.Pass.Lowering
import TensorGraph.Proofs.Pass.LoweringRange
import TensorGraph.Proofs.Pass.LoweringSources
import TensorGraph.Proofs.Pass.LoweringSpecs
import TensorGraph.Proofs.Pass.LoweringSteps
import TensorGraph.Proofs.Pass.LoweringValues
import TensorGraph.Proofs.Pass.Measure
import TensorGraph.Proofs.Pass.Offering
import TensorGraph.Proofs.Pass.Overflow
import TensorGraph.Proofs.Pass.Progress
import TensorGraph.Proofs.Pass.Provenance
import TensorGraph.Proofs.Pass.Requests
import TensorGraph.Proofs.Pass.Rewrites
import TensorGraph.Proofs.Pass.Sources
import TensorGraph.Proofs.Pass.Substitution
import TensorGraph.Proofs.Pass.Survivors
import TensorGraph.Proofs.Pass.Tightness
import TensorGraph.Proofs.Pass.Unpinning
import TensorGraph.Proofs.Pass.Versions
import TensorGraph.Proofs.Pass.Visit
import TensorGraph.Proofs.Pattern.Acceptance
import TensorGraph.Proofs.Pattern.Bindings
import TensorGraph.Proofs.Pattern.Building
import TensorGraph.Proofs.Pattern.Inversion
import TensorGraph.Proofs.Pattern.Kinds
import TensorGraph.Proofs.Pattern.Operations
import TensorGraph.Proofs.Pattern.Places
import TensorGraph.Proofs.Pattern.Soundness
import TensorGraph.Proofs.Rewrite.Acceptance
import TensorGraph.Proofs.Rewrite.Access
import TensorGraph.Proofs.Rewrite.Anchors
import TensorGraph.Proofs.Rewrite.Content
import TensorGraph.Proofs.Rewrite.Cycles
import TensorGraph.Proofs.Rewrite.Drafting
import TensorGraph.Proofs.Rewrite.Edits
import TensorGraph.Proofs.Rewrite.Effect
import TensorGraph.Proofs.Rewrite.Generations
import TensorGraph.Proofs.Rewrite.Handles
import TensorGraph.Proofs.Rewrite.History
import TensorGraph.Proofs.Rewrite.Inheritance
import TensorGraph.Proofs.Rewrite.Ledger
import TensorGraph.Proofs.Rewrite.Reading
import TensorGraph.Proofs.Rewrite.Rewiring
import TensorGraph.Proofs.Rewrite.Sketching
import TensorGraph.Proofs.Rewrite.Staging
import TensorGraph.Proofs.Rewrite.Tightness
import TensorGraph.Proofs.Rewrite.Versions
import TensorGraph.Proofs.Rewrite.Watching
import TensorGraph.Proofs.Tensor.Counting
import TensorGraph.Proofs.Tensor.Layout
import TensorGraph.Proofs.Tensor.Strides
import TensorGraph.Rewrite.Commit
import TensorGraph.Rewrite.Plan
import TensorGraph.Rewrite.Staging
import TensorGraph.Shape
import TensorGraph.Tensor.Basic
import TensorGraph.Tensor.Fold
import TensorGraph.Tensor.Index
