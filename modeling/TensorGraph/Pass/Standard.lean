import TensorGraph.Attention.Pass
import TensorGraph.Pass.BiasFusion
import TensorGraph.Pass.ConstantFolding
import TensorGraph.Pass.Pipeline
import TensorGraph.Pass.Reshape
import TensorGraph.Pass.Transpose
import TensorGraph.Pass.UniqueLowering

/-! # Standard pipeline

The passes in the order in which they help each other: clean-ups first, then fusions and
lowerings, and attention last.
-/

namespace TensorGraph

def Pipeline.standard : Pipeline where
  passes :=
    [Transpose.canonicalize, Reshape.canonicalize, ConstantFolding.pass.toPass,
      BiasFusion.quantized.toPass, BiasFusion.plain.toPass, UniqueLowering.pass.toPass,
      Attention.pass .standard]
  maxSweeps := 16

end TensorGraph
