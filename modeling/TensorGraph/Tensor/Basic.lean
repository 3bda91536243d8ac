import TensorGraph.Decimal.Format
import TensorGraph.ElementType
import TensorGraph.Error
import TensorGraph.Tensor.Index

/-! # Constant tensors

A tensor holds one number for every entry of its sizes, each a value of its element type.
-/

namespace TensorGraph

structure Tensor where
  elementType : ElementType
  sizes : List Nat
  data : Array Float
  size_data : data.size = entryCount sizes

namespace Tensor

/-- A tensor of the given entries, each cast to the element type. -/
def ofData (elementType : ElementType) (sizes : List Nat) (data : Array Float) :
    Except GraphError Tensor :=
  if (boundedProduct sizes).isNone then .error .overflow
  else if h : data.size = entryCount sizes then
    .ok ⟨elementType, sizes, data.map elementType.cast, by rw [Array.size_map, h]⟩
  else .error (.constantPayload (entryCount sizes) data.size)

def splat (elementType : ElementType) (sizes : List Nat) (value : Float) : Tensor :=
  ⟨elementType, sizes, Array.replicate (entryCount sizes) (elementType.cast value),
    Array.size_replicate⟩

/-- The same, if its entries can be counted. -/
def filled (elementType : ElementType) (sizes : List Nat) (value : Float) :
    Except GraphError Tensor :=
  if (boundedProduct sizes).isNone then .error .overflow else .ok (splat elementType sizes value)

def scalar (elementType : ElementType) (value : Float) : Tensor := splat elementType [] value

/-- The tensor whose entry at each coordinates is given by a function. -/
def tabulate (elementType : ElementType) (sizes : List Nat) (entry : List Nat → Float) : Tensor :=
  ⟨elementType, sizes, Array.ofFn fun i : Fin (entryCount sizes) => entry (coordinates sizes i),
    Array.size_ofFn⟩

def spec (t : Tensor) : Spec := ⟨t.elementType, .ofSizes t.sizes⟩

def entry (t : Tensor) (coords : List Nat) : Float := t.data.getD (position t.sizes coords) 0

def single? (t : Tensor) : Option Float := if t.data.size = 1 then t.data[0]? else none

/-- The same entries in order, under other sizes with as many entries. -/
def withSizes? (t : Tensor) (sizes : List Nat) : Option Tensor :=
  if h : t.data.size = entryCount sizes then some ⟨t.elementType, sizes, t.data, h⟩ else none

def convert (t : Tensor) (elementType : ElementType) : Tensor :=
  ⟨elementType, t.sizes, t.data.map elementType.cast, by rw [Array.size_map, t.size_data]⟩

/-- Entries keep a fractional part, and have an exponent below `10⁻⁴` and from `10¹⁶`. -/
def entryFormat : NumberFormat := ⟨some (-4, 15), true⟩

/-- Tensors of more than this many entries are written without them. -/
def writtenEntries : Nat := 4

def text (t : Tensor) : String :=
  let head := t.elementType.name ++ natsText t.sizes
  if t.data.size ≤ writtenEntries then
    head ++ " " ++ bracketed (t.data.toList.map entryFormat.render)
  else head

end Tensor

end TensorGraph
