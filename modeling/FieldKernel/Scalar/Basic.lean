import FieldKernel.Decimal.Basic

-- The numbers a kernel computes with. Nothing here assumes laws: doubles are one instance, exact fields are others.
namespace FieldKernel

class Scalar (α : Type) extends Add α, Sub α, Mul α, Div α, Neg α where
  ofInt : Int → α
  ofDecimal : Decimal → α
  infinity : α
  nan : α
  pow : α → α → α
  max : α → α → α
  min : α → α → α
  floor : α → α
  sin : α → α
  cos : α → α
  exp : α → α
  log : α → α
  sqrt : α → α
  tanh : α → α
  abs : α → α
  -- comparisons; where a number is not a number all three may fail
  eq : α → α → Bool
  lt : α → α → Bool
  le : α → α → Bool
  -- the integer a number equals, if it is one
  integer? : α → Option Int
  -- rounding to what a short float, or a 32-bit integer, can hold
  toSingle : α → α
  toInt32 : α → α
  -- the spelling in kernel texts, and the one in messages
  literal : α → String
  message : α → String

namespace Scalar

variable {α : Type} [Scalar α]

def zero : α := ofInt 0
def one : α := ofInt 1
def minusOne : α := ofInt (-1)
def half : α := ofDecimal ⟨5, -1⟩

def ofBool (b : Bool) : α := if b then one else zero

def isZero (a : α) : Bool := eq a zero

def floorDiv (a b : α) : α := floor (a / b)

-- The remainder that goes with `floorDiv`; it takes the sign of the divisor.
def floorMod (a b : α) : α := a - b * floorDiv a b

def sign (a : α) : α := if lt zero a then one else if lt a zero then minusOne else zero

end Scalar

end FieldKernel
