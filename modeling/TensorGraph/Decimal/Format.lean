import TensorGraph.Decimal.Shortest

/-! # Written numbers

The text of a binary64 number from its shortest decimal. A `NumberFormat` says where positional
writing ends and whether whole numbers keep a fractional part.
-/

namespace TensorGraph

structure NumberFormat where
  /-- Decimal exponents of the first digit that are written positionally; `none` is all. -/
  positional : Option (Int × Int)
  /-- Whole numbers written positionally end in `.0`. -/
  keepPoint : Bool

namespace NumberFormat

def isPositional (f : NumberFormat) (exponent : Int) : Bool :=
  match f.positional with
  | none => true
  | some (least, greatest) => least ≤ exponent && exponent ≤ greatest

def zeros (n : Nat) : String := String.ofList (List.replicate n '0')

/-- The digits with a point after the first `point` of them. -/
def positionalText (f : NumberFormat) (digits : List Char) (point : Int) : String :=
  let count : Int := digits.length
  if point ≤ 0 then "0." ++ zeros (-point).toNat ++ String.ofList digits
  else if point < count then
    String.ofList (digits.take point.toNat) ++ "." ++ String.ofList (digits.drop point.toNat)
  else
    String.ofList digits ++ zeros (point - count).toNat ++ (if f.keepPoint then ".0" else "")

def scientificText (digits : List Char) (exponent : Int) : String :=
  let mantissa := match digits with
    | [] => "0"
    | [d] => String.singleton d
    | d :: rest => String.singleton d ++ "." ++ String.ofList rest
  mantissa ++ "e" ++ toString exponent

/-- A zero is written positionally, as the digit `0` before the point. -/
def magnitudeText (f : NumberFormat) (d : Decimal) : String :=
  let digits := (Nat.repr d.significand).toList
  let point := d.exponent + digits.length
  if d.significand = 0 then f.positionalText ['0'] 1
  else if f.isPositional (point - 1) then f.positionalText digits point
  else scientificText digits (point - 1)

def signText (negative : Bool) : String := if negative then "-" else ""

def render (f : NumberFormat) (x : Float) : String :=
  match Binary64.ofFloat x with
  | .nan => "NaN"
  | .infinite negative => signText negative ++ "inf"
  | .finite negative mantissa exponent =>
    signText negative ++ f.magnitudeText (Decimal.shortest mantissa exponent)

end NumberFormat

end TensorGraph
