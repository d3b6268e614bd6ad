-- Decimal numbers without a sign, `digits * 10 ^ exponent`: what a number in a text denotes before it is rounded.
namespace FieldKernel

structure Decimal where
  digits : Nat
  exponent : Int
  deriving DecidableEq, Repr

namespace Decimal

def digitValue (c : Char) : Nat := c.toNat - 48

def natOfDigits (cs : List Char) : Nat := cs.foldl (fun n c => 10 * n + digitValue c) 0

def digitsOfNat (n : Nat) : List Char := Nat.toDigits 10 n

-- The decimal written `whole.fraction` times ten to `exponent`.
def ofParts (whole fraction : List Char) (exponent : Int) : Decimal :=
  ⟨natOfDigits (whole ++ fraction), exponent - fraction.length⟩

def ofNat (n : Nat) : Decimal := ⟨n, 0⟩

def exponent? : List Char → Option Int
  | [] => some 0
  | mark :: cs =>
    if mark = 'e' ∨ mark = 'E' then
      let (negative, ds) := match cs with
        | '-' :: ds => (true, ds)
        | '+' :: ds => (false, ds)
        | ds => (false, ds)
      if ds.isEmpty || !ds.all Char.isDigit then none
      else some (if negative then -(natOfDigits ds : Int) else natOfDigits ds)
    else none

-- A whole text as a number: digits with an optional point among, before or after them, then an
-- optional exponent.
def ofText? (cs : List Char) : Option Decimal :=
  let whole := cs.takeWhile Char.isDigit
  let (fraction, tail) := match cs.dropWhile Char.isDigit with
    | '.' :: rest => (rest.takeWhile Char.isDigit, rest.dropWhile Char.isDigit)
    | rest => ([], rest)
  if whole.isEmpty && fraction.isEmpty then none
  else (exponent? tail).map (ofParts whole fraction)

-- Beyond these powers of ten every double is infinite or zero.
def toFloat (d : Decimal) : Float :=
  let leading : Int := (digitsOfNat d.digits).length + d.exponent
  if d.digits = 0 then 0
  else if 310 < leading then 1 / 0
  else if leading < -330 then 0
  else if 0 ≤ d.exponent then Float.ofScientific d.digits false d.exponent.toNat
  else Float.ofScientific d.digits true (-d.exponent).toNat

end Decimal

end FieldKernel
