import Mathlib.Tactic.FieldSimp
import Mathlib.Tactic.Ring
import FieldKernel.Proofs.Reverse.Tape
import FieldKernel.Proofs.Scalar.Exact

-- Forward mode over exact numbers, by the derivatives of the textbook.
namespace FieldKernel

variable {K : Type} [ExactNumber K] [Elementary K]

@[simp] theorem exact_zero : (Scalar.zero : K) = 0 := Int.cast_zero

@[simp] theorem exact_one : (Scalar.one : K) = 1 := Int.cast_one

@[simp] theorem exact_minusOne : (Scalar.minusOne : K) = -1 := by
  simp [Scalar.minusOne, Scalar.ofInt]

theorem exact_half : (Scalar.half : K) = 1 / 2 := by
  simp only [Scalar.half, Scalar.ofDecimal, Decimal.exact]
  norm_num

namespace BinaryOp

def tangent : BinaryOp → K → K → K → K → K
  | add, _, _, s, t => s + t
  | sub, _, _, s, t => s - t
  | mul, a, b, s, t => s * b + a * t
  | div, a, b, s, t => (s * b - a * t) / (b * b)
  | pow, a, b, s, t => s * (b * Elementary.pow a (b - 1)) + t * (Elementary.pow a b * Elementary.log a)
  | max, a, b, s, t => if b ≤ a then s else t
  | min, a, b, s, t => if a ≤ b then s else t
  | mod, a, b, s, t => s - t * ⌊a / b⌋
  | floorDiv, _, _, _, _ => 0

theorem tangent_zero (op : BinaryOp) (a b : K) : op.tangent a b 0 0 = 0 := by
  cases op <;> simp [tangent]

theorem tangent_eq {op : BinaryOp} (mod_ : op ≠ .mod) (floorDiv_ : op ≠ .floorDiv) (a b s t : K) :
    op.tangent a b s t = s * op.leftPartial a b + t * op.rightPartial a b := by
  cases op with
  | add => simp [tangent, leftPartial, rightPartial]
  | sub =>
    simp only [tangent, leftPartial, rightPartial, exact_one, exact_minusOne]
    ring
  | mul =>
    simp only [tangent, leftPartial, rightPartial]
    ring
  | div =>
    simp only [tangent, leftPartial, rightPartial, exact_one]
    by_cases zero : b = 0
    · simp [zero]
    · field_simp
      ring
  | pow => simp [tangent, leftPartial, rightPartial, Scalar.pow, Scalar.log]
  | max =>
    simp only [tangent, leftPartial, rightPartial, CompareOp.apply, CompareOp.holds, Scalar.ofBool,
      Scalar.le, Scalar.lt]
    by_cases first : b ≤ a
    · simp [first]
    · simp [first, not_le.mp first]
  | min =>
    simp only [tangent, leftPartial, rightPartial, CompareOp.apply, CompareOp.holds, Scalar.ofBool,
      Scalar.le, Scalar.lt]
    by_cases first : a ≤ b
    · simp [first]
    · simp [first, not_le.mp first]
  | mod => exact absurd rfl mod_
  | floorDiv => exact absurd rfl floorDiv_

end BinaryOp

namespace UnaryOp

def tangent : UnaryOp → K → K → K
  | neg, _, t => -t
  | sin, a, t => t * Elementary.cos a
  | cos, a, t => -(t * Elementary.sin a)
  | exp, a, t => t * Elementary.exp a
  | log, a, t => t / a
  | sqrt, a, t => t / (2 * Elementary.sqrt a)
  | tanh, a, t => t * (1 - Elementary.tanh a ^ 2)
  | abs, a, t => if 0 < a then t else if a < 0 then -t else 0
  | sgn, _, _ => 0

theorem tangent_zero (op : UnaryOp) (a : K) : op.tangent a 0 = 0 := by
  cases op <;> simp [tangent]

theorem tangent_eq (op : UnaryOp) (a t : K) : op.tangent a t = t * op.partial_ a := by
  cases op with
  | neg => simp [tangent, partial_]
  | sin | exp => rfl
  | cos => simp [tangent, partial_, Scalar.sin]
  | log => simp [tangent, partial_, div_eq_mul_inv]
  | sqrt =>
    simp only [tangent, partial_, exact_half, Scalar.sqrt]
    rw [div_div, mul_one_div]
  | tanh =>
    simp only [tangent, partial_, exact_one, Scalar.tanh]
    ring
  | abs =>
    simp only [tangent, partial_, Scalar.sign, Scalar.lt, exact_zero, exact_one, exact_minusOne]
    by_cases positive : 0 < a
    · simp [positive]
    · by_cases negative : a < 0 <;> simp [positive, negative]
  | sgn => simp [tangent, partial_]

end UnaryOp

-- Adds an event to the tangents before it. The tangent of a load is that of the loaded location, if the
-- field is real.
def Event.push (real : String → Bool) (d : String → Nat → K) (tangent : ValueId → K) :
    Event K → ValueId → K
  | .plain dst => Function.update tangent dst 0
  | .load dst field position =>
    Function.update tangent dst (if real field then d field position else 0)
  | .store _ _ _ => tangent
  | .binary dst op lhs rhs a b =>
    Function.update tangent dst (op.tangent a b (tangent lhs) (tangent rhs))
  | .unary dst op operand a => Function.update tangent dst (op.tangent a (tangent operand))

-- What a tape stores to real fields: each location as often as it is stored to, with the tangent of the
-- number that is stored.
def Tape.stored (real : String → Bool) (d : String → Nat → K) :
    Tape K → (ValueId → K) → List ((String × Nat) × K)
  | [], _ => []
  | .store field position v :: rest, tangent =>
    if real field then ((field, position), tangent v) :: stored real d rest tangent
    else stored real d rest tangent
  | e :: rest, tangent => stored real d rest (e.push real d tangent)

end FieldKernel
