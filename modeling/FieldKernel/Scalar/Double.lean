import FieldKernel.Scalar.Basic
import FieldKernel.Decimal.Layout

-- Double-precision floats as scalars.
namespace FieldKernel.Double

def isNaN (x : Float) : Bool := !(x == x)

-- The greater of two numbers; one that is not a number gives way to the other.
def max (a b : Float) : Float :=
  if isNaN a then b else if isNaN b then a else if a < b then b else a

def min (a b : Float) : Float :=
  if isNaN a then b else if isNaN b then a else if b < a then b else a

def ofInt (i : Int) : Float :=
  if 0 ≤ i then (Decimal.ofNat i.toNat).toFloat else -(Decimal.ofNat (-i).toNat).toFloat

instance : Scalar Float where
  ofInt := ofInt
  ofDecimal := Decimal.toFloat
  infinity := 1 / 0
  nan := 0 / 0
  pow := Float.pow
  max := max
  min := min
  floor := Float.floor
  sin := Float.sin
  cos := Float.cos
  exp := Float.exp
  log := Float.log
  sqrt := Float.sqrt
  tanh := Float.tanh
  abs := Float.abs
  eq a b := a == b
  lt a b := a < b
  le a b := a ≤ b
  integer? x := (Binary64.ofFloat x).integer?
  toSingle x := x.toFloat32.toFloat
  toInt32 x := ofInt x.toInt32.toInt
  literal x := (Binary64.ofFloat x).text .literal
  message x := (Binary64.ofFloat x).text .message

end FieldKernel.Double
