/-! # Element types

The scalar types that a tensor may carry, with their classes, widths and names.
-/

namespace TensorGraph

inductive ElementType where
  | boolean
  | i8
  | u8
  | i32
  | i64
  | f16
  | bf16
  | f32
  | f64
deriving DecidableEq

namespace ElementType

def all : List ElementType := [boolean, i8, u8, i32, i64, f16, bf16, f32, f64]

def isFloat : ElementType → Bool
  | f16 | bf16 | f32 | f64 => true
  | _ => false

/-- Signed and unsigned integers; booleans are not counted. -/
def isInteger : ElementType → Bool
  | i8 | u8 | i32 | i64 => true
  | _ => false

/-- The two types that quantization produces. -/
def isQuantized : ElementType → Bool
  | i8 | u8 => true
  | _ => false

/-- The types that may hold positions. -/
def isIndex : ElementType → Bool
  | i32 | i64 => true
  | _ => false

def bits : ElementType → Nat
  | boolean => 1
  | i8 | u8 => 8
  | f16 | bf16 => 16
  | i32 | f32 => 32
  | i64 | f64 => 64

def name : ElementType → String
  | boolean => "bool"
  | i8 => "i8"
  | u8 => "u8"
  | i32 => "i32"
  | i64 => "i64"
  | f16 => "f16"
  | bf16 => "bf16"
  | f32 => "f32"
  | f64 => "f64"

def ofName? (s : String) : Option ElementType := all.find? fun t => t.name == s

theorem ofName?_name (t : ElementType) : ofName? t.name = some t := by
  cases t <;> rfl

/-- The value without its fraction: of its 64 bits, those that stand for less than one are cleared.
NaN and the infinities have none of these. -/
def truncate (x : Float) : Float :=
  let bits := x.toBits
  let exponent := (bits >>> 52) &&& 0x7ff
  if exponent < 1023 then .ofBits (bits &&& 0x8000000000000000)
  else if exponent < 1075 then .ofBits (bits &&& (0xffffffffffffffff <<< (1075 - exponent)))
  else x

/-- The value held between two bounds; NaN and the sign of zero stay. -/
def clamp (low high x : Float) : Float :=
  if x < low then low else if high < x then high else x

/-- The value of this type that stands for `x`. Integers cut the fraction off and stop at their
bounds, floats up to 32 bits round to single precision, and every non-zero value is true. -/
def cast (t : ElementType) (x : Float) : Float :=
  match t with
  | boolean => if x == 0 then 0 else 1
  | i8 => clamp (-128) 127 (truncate x)
  | u8 => clamp 0 255 (truncate x)
  | i32 => clamp (-2147483648) 2147483647 (truncate x)
  | i64 => truncate x
  | f16 | bf16 | f32 => x.toFloat32.toFloat
  | f64 => x

end ElementType

end TensorGraph
