/-! # Shortest decimals

A binary64 number is read back by every decimal of its rounding interval. `shortest?` picks,
among the decimals of that interval with the fewest digits, the one nearest to the number; of
two equally near ones it takes the larger.
-/

namespace TensorGraph

/-- A binary64 number, split into its parts. A finite one is `± mantissa * 2 ^ exponent`. -/
inductive Binary64 where
  | nan
  | infinite (negative : Bool)
  | finite (negative : Bool) (mantissa : Nat) (exponent : Int)
deriving DecidableEq

namespace Binary64

/-- The exponent of the subnormal numbers, the least one. -/
def leastExponent : Int := -1074

/-- The mantissa at which the gap below a number is half the gap above it. -/
def leastNormal : Nat := Nat.pow 2 52

def ofBits (bits : Nat) : Binary64 :=
  let negative := Nat.pow 2 63 ≤ bits
  let field := bits / Nat.pow 2 52 % Nat.pow 2 11
  let fraction := bits % Nat.pow 2 52
  if field = 2047 then
    if fraction = 0 then infinite negative else nan
  else if field = 0 then finite negative fraction leastExponent
  else finite negative (leastNormal + fraction) (leastExponent + (field - 1 : Nat))

def ofFloat (x : Float) : Binary64 := ofBits x.toBits.toNat

end Binary64

/-- The number `significand * 10 ^ exponent`. -/
structure Decimal where
  significand : Nat
  exponent : Int
deriving DecidableEq

namespace Decimal

def width (n : Nat) : Nat :=
  if h : n = 0 then 0 else width (n / 10) + 1
termination_by n
decreasing_by omega

/-- The decimal with the trailing zeros of its significand moved into the exponent. -/
def trim (d : Decimal) : Decimal :=
  if h : d.significand ≠ 0 ∧ d.significand % 10 = 0 then
    trim ⟨d.significand / 10, d.exponent + 1⟩
  else d
termination_by d.significand
decreasing_by omega

/-- A rounding interval around `value / denominator`, over one denominator. -/
structure Interval where
  low : Nat
  value : Nat
  high : Nat
  denominator : Nat
  closed : Bool

namespace Interval

/-- The numbers that round to `mantissa * 2 ^ exponent`: half a gap to either side. The ends
belong to it exactly if the mantissa is even. -/
def ofFinite (mantissa : Nat) (exponent : Int) : Interval :=
  let scale := Nat.pow 2 (exponent - 2).toNat
  let below := if mantissa = Binary64.leastNormal ∧ Binary64.leastExponent < exponent then 1 else 2
  { low := (4 * mantissa - below) * scale
    value := 4 * mantissa * scale
    high := (4 * mantissa + 2) * scale
    denominator := Nat.pow 2 (2 - exponent).toNat
    closed := mantissa % 2 == 0 }

/-- The least `e` for which the value is below `10 ^ e`. -/
def magnitude (i : Interval) : Int :=
  if i.denominator ≤ i.value then width (i.value / i.denominator)
  else 1 - (width ((i.denominator - 1) / i.value) : Int)

/-- The interval in units of `10 ^ p`. -/
def inUnits (i : Interval) (p : Int) : Interval :=
  let up := Nat.pow 10 (-p).toNat
  { low := i.low * up
    value := i.value * up
    high := i.high * up
    denominator := i.denominator * Nat.pow 10 p.toNat
    closed := i.closed }

def contains (i : Interval) (n : Nat) : Bool :=
  if i.closed then i.low ≤ n * i.denominator && n * i.denominator ≤ i.high
  else i.low < n * i.denominator && n * i.denominator < i.high

/-- The whole number of the interval next to its value, the larger of two equally near. -/
def nearest? (i : Interval) : Option Nat :=
  let below := i.value / i.denominator
  let above := below + 1
  match i.contains below, i.contains above with
  | true, true =>
    if 2 * i.value < (below + above) * i.denominator then some below else some above
  | true, false => some below
  | false, true => some above
  | false, false => none

/-- The decimal of the interval on the grid that has `digits` digits. -/
def onGrid? (i : Interval) (digits : Nat) : Option Decimal :=
  let p := i.magnitude - digits
  (i.inUnits p).nearest?.map fun n => trim ⟨n, p⟩

/-- The first hit when the grids are tried from the coarsest. Seventeen digits always suffice. -/
def shortest? (i : Interval) : Option Decimal :=
  (List.range 17).findSome? fun k => i.onGrid? (k + 1)

end Interval

/-- The shortest decimal that reads back as `mantissa * 2 ^ exponent`. -/
def shortest (mantissa : Nat) (exponent : Int) : Decimal :=
  if mantissa = 0 then ⟨0, 0⟩
  else (Interval.ofFinite mantissa exponent).shortest?.getD ⟨0, 0⟩

end Decimal

end TensorGraph
