import TensorGraph.Pass.Pattern

/-! # Lowering of Unique

The distinct values of a flattened tensor, in the order of their first occurrence, and the place
of every element among them are computed by sorting, comparing and gathering. A node whose first
positions or counts are read is left alone.
-/

namespace TensorGraph.UniqueLowering

def pattern : Pattern := ⟨.wrap 0 [.unique] [] .always, 1⟩

def parameters? : Operation Body → Option (ElementType × Option Int)
  | .primitive (.unique indexType axis) => some (indexType, axis)
  | _ => none

section Steps

variable (g : Graph)

def step (p : Primitive) (inputs : List Operand) : Staging Operand := Staging.makeValue g p inputs

def constant (t : Tensor) : Staging Operand := step g (.constant t) []

/-- The number of elements of a list, as a scalar. -/
def lengthOf (x : Operand) : Staging Operand := do
  let shape ← step g (.shapeOf .i32) [x]
  step g (.squeeze []) [shape]

def sorted (x count : Operand) : Staging Operand := step g (.topK 0 .smallest .i32) [x, count]

/-- The positions that start a run of equal elements in a sorted list. -/
def runStarts (elementType : ElementType) (one zero sorted : Operand) : Staging Operand := do
  let pad ← constant g (.splat elementType [1] 0)
  let left ← step g (.concat 0) [sorted, pad]
  let right ← step g (.concat 0) [pad, sorted]
  let boundaries ← step g .notEqual [left, right]
  let inside ← step g (.slice 1 (-1) 1 0) [boundaries]
  let first ← constant g (.splat .boolean [1] 1)
  let keep ← step g (.concat 0) [first, inside]
  let mask ← step g .select [keep, one, zero]
  let positions ← step g (.nonZero .i64) [mask]
  step g (.squeeze [0]) [positions]

/-- For each distinct value the position at which it occurs first. -/
def firstPositions (row distinct count one scalarOne : Operand) : Staging Operand := do
  let column ← step g (.unsqueeze [1]) [distinct]
  let equal ← step g .equal [row, column]
  let beyond ← step g .add [count, scalarOne]
  let weights ← step g .select [equal, scalarOne, beyond]
  let numbers ← step g (.range .i32) [scalarOne, beyond, scalarOne]
  let numbers ← step g (.unsqueeze [0]) [numbers]
  let weighted ← step g .multiply [weights, numbers]
  let least ← step g (.reduceMin [1] false) [weighted]
  step g .subtract [least, one]

/-- For each element the place of its value in a list of distinct values. -/
def places (indexType : ElementType) (row values count scalarOne : Operand) : Staging Nat := do
  let one ← constant g (.splat indexType [1] 1)
  let zero ← constant g (.splat indexType [1] 0)
  let column ← step g (.unsqueeze [1]) [values]
  let equal ← step g .equal [column, row]
  let beyond ← step g .add [count, scalarOne]
  let hits ← step g .select [equal, one, zero]
  let numbers ← step g (.range indexType) [scalarOne, beyond, scalarOne]
  let numbers ← step g (.unsqueeze [1]) [numbers]
  let weighted ← step g .multiply [hits, numbers]
  let greatest ← step g (.reduceMax [0] false) [weighted]
  Staging.make g Primitive.subtract [greatest, one]

/-- The distinct values and the places of all elements, for a flat list. -/
def lower (elementType indexType : ElementType) (flat : Operand) : Staging (Nat × Nat) := do
  let one ← constant g (.splat .i32 [1] 1)
  let zero ← constant g (.splat .i32 [1] 0)
  let scalarOne ← constant g (.scalar .i32 1)
  let count ← lengthOf g flat
  let ascending ← sorted g flat count
  let starts ← runStarts g elementType one zero ascending
  let distinct ← step g (.gather 0) [ascending, starts]
  let row ← step g (.unsqueeze [0]) [flat]
  let positions ← firstPositions g row distinct count one scalarOne
  let distinctCount ← lengthOf g positions
  let ordered ← sorted g positions distinctCount
  let values ← Staging.make g (Primitive.gather 0) [flat, ordered]
  let reverse ← places g indexType row (.staged values 0) distinctCount scalarOne
  return (values, reverse)

end Steps

/-- The flattened form of one axis, or of a tensor that has at most one. -/
def isFlat (axis : Option Int) (input : Spec) : Bool :=
  axis.isNone || input.shape.rank?.any (· ≤ 1)

def pass : PatternPass where
  name := "unique-decomposition"
  pattern
  rewrite g m := Staging.toPlan do
    let root := m.root.node
    let n ← Staging.ofOption (g.node? root)
    let (indexType, axis) ← Staging.ofOption (parameters? n.op)
    let input ← Staging.ofOption n.inputs.head?
    let spec ← Staging.ofOption (g.spec? input)
    Staging.check (isFlat axis spec && spec.elementType != .boolean)
    Staging.check ((g.uses (root.output 1)).isEmpty && (g.uses (root.output 3)).isEmpty)
    let valuesUsed := !(g.uses (root.output 0)).isEmpty
    let reverseUsed := !(g.uses (root.output 2)).isEmpty
    Staging.check (valuesUsed || reverseUsed)
    let flat ← Staging.make g (Primitive.reshape [-1] false) [input]
    let flatSpec ← Staging.spec g (.staged flat 0)
    let (values, reverse) ←
      if flatSpec.shape.elementCount? = some 1 then do
        let place ← Staging.make g (Primitive.constant (.splat indexType [1] 0)) []
        pure (flat, place)
      else lower g spec.elementType indexType (.staged flat 0)
    Staging.rename values (n.name ++ ".0")
    Staging.rename reverse (n.name ++ ".2")
    Staging.inherit [root]
    if valuesUsed then Staging.replace (root.output 0) (.staged values 0)
    if reverseUsed then Staging.replace (root.output 2) (.staged reverse 0)

end TensorGraph.UniqueLowering
