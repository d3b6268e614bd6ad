-- What the bits of a double denote: not a number, an infinity, or `mantissa * 2 ^ exponent` exactly.
namespace FieldKernel

inductive Binary64 where
  | nan
  | infinite (negative : Bool)
  | finite (negative : Bool) (mantissa : Nat) (exponent : Int)
  deriving DecidableEq, Repr

namespace Binary64

def hiddenBit : Nat := Nat.pow 2 52
def leastExponent : Int := -1074

def ofBits (bits : Nat) : Binary64 :=
  let negative := bits / Nat.pow 2 63 % 2 == 1
  let scale : Nat := bits / hiddenBit % Nat.pow 2 11
  let low : Nat := bits % hiddenBit
  if scale = 2047 then if low = 0 then .infinite negative else .nan
  else if scale = 0 then .finite negative low leastExponent
  else .finite negative (hiddenBit + low) (scale - 1 + leastExponent)

def ofFloat (x : Float) : Binary64 := ofBits x.toBits.toNat

def integer? : Binary64 → Option Int
  | .nan | .infinite _ => none
  | .finite negative mantissa exponent =>
    let magnitude : Option Nat :=
      if mantissa = 0 then some 0
      else if 0 ≤ exponent then some (mantissa * Nat.pow 2 exponent.toNat)
      else if mantissa % Nat.pow 2 (-exponent).toNat = 0 then
        some (mantissa / Nat.pow 2 (-exponent).toNat)
      else none
    magnitude.map fun n => if negative then -(n : Int) else n

end Binary64

end FieldKernel
