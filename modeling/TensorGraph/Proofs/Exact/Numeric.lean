import Mathlib
import TensorGraph.Proofs.Exact.Grid
import TensorGraph.Proofs.Inference.Slicing

/-! # Numeric meaning of operations

What operations make of grids of exact entries: truth values, integers without bounds, and elements
of any linear order for the floats. Arithmetic is that of the integers, and entries are compared,
moved, selected and sorted whatever they are.
-/

namespace TensorGraph

/-- An entry. Constants of boolean and integer types hold the first two kinds. -/
inductive Cell (α : Type) where
  | truth (b : Bool)
  | number (n : Int)
  | element (a : α)

namespace Cell

variable {α : Type}

def toSum : Cell α → Bool ⊕ₗ Int ⊕ₗ α
  | truth b => toLex (.inl b)
  | number n => toLex (.inr (toLex (.inl n)))
  | element a => toLex (.inr (toLex (.inr a)))

theorem toSum_injective : Function.Injective (toSum : Cell α → Bool ⊕ₗ Int ⊕ₗ α) := by
  intro a b h
  cases a <;> cases b <;> simp [toSum] at h <;> simp [h]

/-- Within a kind the order is the usual one. -/
instance [LinearOrder α] : LinearOrder (Cell α) := LinearOrder.lift' toSum toSum_injective

theorem number_le_number [LinearOrder α] {m n : Int} :
    (number m : Cell α) ≤ number n ↔ m ≤ n := by
  change (toSum (number m) : Bool ⊕ₗ Int ⊕ₗ α) ≤ toSum (number n) ↔ m ≤ n
  simp [toSum]

def truth? : Cell α → Option Bool
  | truth b => some b
  | _ => none

def number? : Cell α → Option Int
  | number n => some n
  | _ => none

def isSet [DecidableEq α] (zero : α) : Cell α → Bool
  | truth b => b
  | number n => n ≠ 0
  | element a => a ≠ zero

def arithmetic (f : Int → Int → Int) : Cell α → Cell α → Option (Cell α)
  | number m, number n => some (number (f m n))
  | _, _ => none

/-- The integer next to a float in the direction of zero. -/
def integer (x : Float) : Int := if x < 0 then -(-x).toUInt64.toNat else x.toUInt64.toNat

/-- The entry that a float stands for in a constant of that type. -/
def read (ρ : Float → α) (t : ElementType) (x : Float) : Cell α :=
  match t with
  | .boolean => truth (x != 0)
  | .i8 | .u8 | .i32 | .i64 => number (integer x)
  | .f16 | .bf16 | .f32 | .f64 => element (ρ x)

variable {ρ : Float → α} {t : ElementType}

theorem read_one (ht : t.isIndex = true) : read ρ t (t.cast 1) = number 1 := by
  cases t <;> first | exact congrArg number (by decide) | cases ht

theorem read_zero (ht : t.isIndex = true) : read ρ t (t.cast 0) = number 0 := by
  cases t <;> first | exact congrArg number (by decide) | cases ht

theorem read_true : read ρ .boolean (ElementType.cast .boolean 1) = truth true :=
  congrArg truth (by decide)

end Cell

namespace Grid

variable {γ δ : Type}

def vec (l : List γ) : Grid γ := ⟨[l.length], l, (Nat.mul_one _).symm⟩

def map (f : γ → δ) (x : Grid γ) : Grid δ :=
  ⟨x.sizes, x.data.map f, by rw [List.length_map, x.length_data]⟩

def single? (x : Grid γ) : Option γ := if x.data.length = 1 then x.data[0]? else none

/-! ### Layout -/

def reshape? (target : List Int) (specialZero : Bool) (x : Grid γ) : Option (Grid γ) := do
  ofData? (← resolveTarget? x.sizes target specialZero) x.data

def squeeze? (axes : List Int) (x : Grid γ) : Option (Grid γ) := do
  ofData? (dropPositions (← squeezePositions? x.sizes axes) x.sizes) x.data

def unsqueeze? (axes : List Int) (x : Grid γ) : Option (Grid γ) := do
  let rank := x.sizes.length + axes.length
  let positions ← unsqueezePositions? rank axes
  ofData? (← interleave 1 ((List.range rank).map (· ∈ positions)) x.sizes) x.data

def axis? (x : Grid γ) (axis : Int) : Option (Nat × Nat) := do
  let i ← resolveAxis axis x.sizes.length
  return (i, ← x.sizes[i]?)

/-- Both one after the other along the axis; all other sizes are the same. -/
def concat? (axis : Int) (x y : Grid γ) : Option (Grid γ) := do
  let (i, n) ← x.axis? axis
  let m ← y.sizes[i]?
  if y.sizes = x.sizes.set i m then
    build? (x.sizes.set i (n + m)) fun coords => do
      let c ← coords[i]?
      if c < n then x.read? coords else y.read? (coords.set i (c - n))
  else none

/-- Every so many entries along the axis, from one bound to before the other. -/
def slice? (start stop step axis : Int) (x : Grid γ) : Option (Grid γ) := do
  let (i, n) ← x.axis? axis
  let first := if 0 < step then Inferred.sliceBound n 0 n start
    else Inferred.sliceBound n (-1) (n - 1) start
  if step = 0 then none
  else build? (x.sizes.set i (Inferred.sliceLength n start stop step)) fun coords => do
    x.read? (coords.set i (first + (← coords[i]?) * step).toNat)

/-- For each index the entries at that place of the axis; negative ones count from the end. -/
def gather? (axis : Int) (x : Grid γ) (indices : Grid Int) : Option (Grid γ) := do
  let (i, n) ← x.axis? axis
  let rank := indices.sizes.length
  build? (x.sizes.take i ++ indices.sizes ++ x.sizes.drop (i + 1)) fun coords => do
    let index ← indices.read? ((coords.drop i).take rank)
    x.read? (coords.take i ++ (← resolveAxis index n) :: coords.drop (i + rank))

/-! ### Selections, searches and reductions -/

/-- The one or the other entry, as all three broadcast. -/
def select? (condition : Grid Bool) (x y : Grid γ) : Option (Grid γ) := do
  zipWith? (fun (p : Bool × γ) c => some (if p.1 then p.2 else c))
    (← zipWith? (fun p c => some (p, c)) condition x) y

/-- The coordinates of what is set, a column for each. -/
def nonZero? (isSet : γ → Bool) (x : Grid γ) : Option (Grid Int) :=
  let found := (List.range (entryCount x.sizes)).filter fun i => (x.data[i]?).any isSet
  build? [x.sizes.length, found.length] fun coords => do
    let i ← found[← coords[1]?]?
    let c : Nat ← (coordinates x.sizes i)[← coords[0]?]?
    return c

/-- Entries along an axis with their places there, the ones to be put first in front. -/
def ranked [LinearOrder γ] (mode : SortMode) (entries : List (γ × Int)) : List (γ × Int) :=
  entries.mergeSort fun a b => match mode with
    | .smallest => a.1 ≤ b.1
    | .largest => b.1 ≤ a.1

/-- The first so many entries along the axis and their places. -/
def topK? [LinearOrder γ] (axis : Int) (mode : SortMode) (count : Int) (x : Grid γ) :
    Option (Grid (γ × Int)) := do
  let (i, n) ← x.axis? axis
  if 0 ≤ count ∧ count ≤ n then
    build? (x.sizes.set i count.toNat) fun coords => do
      let entries ← (List.range n).mapM fun c => do return (← x.read? (coords.set i c), (c : Int))
      (ranked mode entries)[← coords[i]?]?
  else none

/-- The numbers from the first bound to before the second one. -/
def range? (start stop step : Int) : Option (Grid Int) :=
  if step = 0 then none
  else
    let count := if 0 < step then (stop - start + step - 1) / step
      else (start - stop - step - 1) / (-step)
    some (vec ((List.range count.toNat).map fun i : Nat => start + i * step))

/-- All entries that agree at the other axes, reduced to one. -/
def reduce? (f : List γ → Option γ) (axes : List Int) (keepAxes : Bool) (x : Grid γ) :
    Option (Grid γ) := do
  let positions ← axes.mapM fun axis => resolveAxis axis x.sizes.length
  let rest (unit : Nat) (l : List Nat) := if keepAxes then
    l.zipIdx.map fun (n, i) => if i ∈ positions then unit else n else dropPositions positions l
  build? (rest 1 x.sizes) fun coords =>
    f ((List.range (entryCount x.sizes)).filterMap fun i =>
      if rest 0 (coordinates x.sizes i) = coords then x.data[i]? else none)

def mapM? (f : γ → Option δ) (x : Grid γ) : Option (Grid δ) := do
  ofData? x.sizes (← x.data.mapM f)

end Grid

open Grid in
/-- What operations make of exact entries, floats being read by a function. -/
def numeric {α : Type} [LinearOrder α] (ρ : Float → α) :
    Primitive → List (Grid (Cell α)) → Option (List (Grid (Cell α)))
  | .constant t, [] => some [.ofTensor (Cell.read ρ t.elementType) t]
  | .add, [x, y] => do return [← zipWith? (Cell.arithmetic (· + ·)) x y]
  | .subtract, [x, y] => do return [← zipWith? (Cell.arithmetic (· - ·)) x y]
  | .multiply, [x, y] => do return [← zipWith? (Cell.arithmetic (· * ·)) x y]
  | .equal, [x, y] => do return [← zipWith? (fun a b => some (.truth (a = b))) x y]
  | .notEqual, [x, y] => do return [← zipWith? (fun a b => some (.truth (a ≠ b))) x y]
  | .select, [condition, x, y] => do
    return [← select? (← condition.mapM? Cell.truth?) x y]
  | .reshape target specialZero, [x] => do return [← x.reshape? target specialZero]
  | .squeeze axes, [x] => do return [← x.squeeze? axes]
  | .unsqueeze axes, [x] => do return [← x.unsqueeze? axes]
  | .shapeOf _, [x] => some [vec (x.sizes.map fun n => .number n)]
  | .concat axis, x :: rest => do return [← rest.foldlM (concat? axis) x]
  | .slice start stop step axis, [x] => do return [← x.slice? start stop step axis]
  | .gather axis, [x, indices] => do return [← x.gather? axis (← indices.mapM? Cell.number?)]
  | .nonZero _, [x] => do return [(← x.nonZero? (Cell.isSet (ρ 0))).map .number]
  | .topK axis mode _, [x, count] => do
    let found ← x.topK? axis mode (← (← count.single?).number?)
    return [found.map Prod.fst, found.map fun p => .number p.2]
  | .range t, [start, stop, step] => do
    let numbers ← range? (← (← start.single?).number?) (← (← stop.single?).number?)
      (← (← step.single?).number?)
    if t.isInteger then return [numbers.map .number] else none
  | .reduceMin axes keepAxes, [x] => do return [← x.reduce? List.min? axes keepAxes]
  | .reduceMax axes keepAxes, [x] => do return [← x.reduce? List.max? axes keepAxes]
  | _, _ => none

end TensorGraph
