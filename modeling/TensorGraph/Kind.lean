/-! # Kinds of operations

A kind is an operation without its parameters. Capability tables are keyed by kinds and patterns
ask for them.
-/

namespace TensorGraph

inductive Kind where
  | parameter
  | constant
  | result
  | add
  | subtract
  | multiply
  | equal
  | notEqual
  | matMul
  | fullyConnected
  | transpose
  | reshape
  | softmax
  | convert
  | quantize
  | dequantize
  | unique
  | shapeOf
  | squeeze
  | unsqueeze
  | topK
  | concat
  | select
  | slice
  | nonZero
  | gather
  | range
  | reduceMin
  | reduceMax
  | subgraph
deriving DecidableEq

namespace Kind

def all : List Kind :=
  [parameter, constant, result, add, subtract, multiply, equal, notEqual, matMul, fullyConnected,
    transpose, reshape, softmax, convert, quantize, dequantize, unique, shapeOf, squeeze,
    unsqueeze, topK, concat, select, slice, nonZero, gather, range, reduceMin, reduceMax, subgraph]

def name : Kind → String
  | parameter => "Parameter"
  | constant => "Constant"
  | result => "Result"
  | add => "Add"
  | subtract => "Subtract"
  | multiply => "Multiply"
  | equal => "Equal"
  | notEqual => "NotEqual"
  | matMul => "MatMul"
  | fullyConnected => "FullyConnected"
  | transpose => "Transpose"
  | reshape => "Reshape"
  | softmax => "Softmax"
  | convert => "Convert"
  | quantize => "Quantize"
  | dequantize => "Dequantize"
  | unique => "Unique"
  | shapeOf => "ShapeOf"
  | squeeze => "Squeeze"
  | unsqueeze => "Unsqueeze"
  | topK => "TopK"
  | concat => "Concat"
  | select => "Select"
  | slice => "Slice"
  | nonZero => "NonZero"
  | gather => "Gather"
  | range => "Range"
  | reduceMin => "ReduceMin"
  | reduceMax => "ReduceMax"
  | subgraph => "Subgraph"

def ofName? (s : String) : Option Kind := all.find? fun k => k.name == s

theorem ofName?_name (k : Kind) : ofName? k.name = some k := by
  cases k <;> rfl

/-- Parameters and results hold a graph in place and are never released. -/
def isAnchor : Kind → Bool
  | parameter | result => true
  | _ => false

end Kind

/-- How many inputs are accepted; `none` is without bound. -/
structure Arity where
  least : Nat
  greatest : Option Nat
deriving DecidableEq

namespace Arity

def exactly (n : Nat) : Arity := ⟨n, some n⟩

def accepts (a : Arity) (count : Nat) : Bool :=
  a.least ≤ count && a.greatest.all (count ≤ ·)

def text (a : Arity) : String :=
  match a.greatest with
  | some n => if n = a.least then toString n else toString a.least ++ "..=" ++ toString n
  | none => "at least " ++ toString a.least

end Arity

end TensorGraph
