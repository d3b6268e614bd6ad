import Mathlib.Data.Rat.Floor
import FieldKernel.Operator

-- Exact numbers as scalars: an ordered field, with any functions in the place of the elementary ones.

-- An ordered field with integer parts.
class abbrev ExactNumber (K : Type) := Field K, LinearOrder K, IsStrictOrderedRing K, FloorRing K

namespace FieldKernel

-- What an ordered field does not come with.
class Elementary (K : Type) where
  infinity : K
  nan : K
  pow : K → K → K
  sin : K → K
  cos : K → K
  exp : K → K
  log : K → K
  sqrt : K → K
  tanh : K → K
  literal : K → String
  message : K → String

variable {K : Type} [ExactNumber K] [Elementary K]

def Decimal.exact (d : Decimal) : K :=
  if 0 ≤ d.exponent then d.digits * 10 ^ d.exponent.toNat else d.digits / 10 ^ (-d.exponent).toNat

instance exactScalar : Scalar K where
  ofInt i := i
  ofDecimal := Decimal.exact
  infinity := Elementary.infinity
  nan := Elementary.nan
  pow := Elementary.pow
  max a b := Max.max a b
  min a b := Min.min a b
  floor a := ⌊a⌋
  sin := Elementary.sin
  cos := Elementary.cos
  exp := Elementary.exp
  log := Elementary.log
  sqrt := Elementary.sqrt
  tanh := Elementary.tanh
  abs a := |a|
  eq a b := a = b
  lt a b := a < b
  le a b := a ≤ b
  integer? a := if (⌊a⌋ : K) = a then some ⌊a⌋ else none
  toSingle a := a
  toInt32 a := a
  literal := Elementary.literal
  message := Elementary.message

instance : ExactNumber ℚ where

instance : Elementary ℚ where
  infinity := 0
  nan := 0
  pow a _ := a
  sin := id
  cos := id
  exp := id
  log := id
  sqrt := id
  tanh := id
  literal := toString
  message := toString

end FieldKernel
