import FieldKernel.Decimal.Basic
import FieldKernel.Decimal.Binary64

-- The decimal digits of a binary value `m * 2 ^ e`: a given number of them, or the fewest that still
-- read back as the value. All arithmetic is exact, on quotients of naturals.
namespace FieldKernel.Digits

structure Ratio where
  num : Nat
  den : Nat
  deriving DecidableEq, Repr

def power (base : Nat) (exponent : Int) : Ratio :=
  if 0 ≤ exponent then ⟨Nat.pow base exponent.toNat, 1⟩
  else ⟨1, Nat.pow base (-exponent).toNat⟩

def Ratio.mul (a b : Ratio) : Ratio := ⟨a.num * b.num, a.den * b.den⟩

def Ratio.ofNat (n : Nat) : Ratio := ⟨n, 1⟩

def Ratio.le (a b : Ratio) : Bool := a.num * b.den ≤ b.num * a.den

def Ratio.lt (a b : Ratio) : Bool := a.num * b.den < b.num * a.den

def digitCount (n : Nat) : Nat := (Decimal.digitsOfNat n).length

def leadingExponent (x : Ratio) : Int :=
  let guess : Int := (digitCount x.num : Int) - digitCount x.den
  if (power 10 guess).le x then guess else guess - 1

-- The nearest natural to a quotient; a half goes to the even neighbour.
def roundHalfEven (x : Ratio) : Nat :=
  let q := x.num / x.den
  let r := x.num % x.den
  if 2 * r < x.den then q
  else if x.den < 2 * r then q + 1
  else if q % 2 = 0 then q else q + 1

-- A positive quotient to `count` significant digits; rounding up may carry into a new digit.
def significant (count : Nat) (x : Ratio) : Decimal :=
  let place := leadingExponent x - (count : Int) + 1
  let digits := roundHalfEven (x.mul (power 10 (-place)))
  if digits = Nat.pow 10 count then ⟨Nat.pow 10 (count - 1), place + 1⟩ else ⟨digits, place⟩

-- The reals that read as `m * 2 ^ e` and the value itself, in quarters of the last bit. Below a
-- power of two the next value is half as far away; the ends belong iff the mantissa is even.
structure Cell where
  low : Nat
  mid : Nat
  high : Nat
  closed : Bool
  unit : Ratio

def cell (mantissa : Nat) (exponent : Int) : Cell :=
  let narrow := mantissa = Binary64.hiddenBit ∧ Binary64.leastExponent < exponent
  { low := if narrow then 4 * mantissa - 1 else 4 * mantissa - 2
    mid := 4 * mantissa
    high := 4 * mantissa + 2
    closed := mantissa % 2 == 0
    unit := power 2 (exponent - 2) }

def Cell.contains (c : Cell) (x : Ratio) : Bool :=
  let low := (Ratio.ofNat c.low).mul c.unit
  let high := (Ratio.ofNat c.high).mul c.unit
  if c.closed then low.le x && x.le high else low.lt x && x.lt high

-- The nearer of the value's two neighbours on the grid of `place` that reads back, if one does;
-- of two equally near the upper one.
def onGrid (c : Cell) (place : Int) : Option Nat :=
  let value := (Ratio.ofNat c.mid).mul c.unit
  let steps := value.mul (power 10 (-place))
  let lower := steps.num / steps.den
  let point (n : Nat) := (Ratio.ofNat n).mul (power 10 place)
  let below := c.contains (point lower)
  let above := c.contains (point (lower + 1))
  let lowerNearer := 2 * (steps.num % steps.den) < steps.den
  if below && (lowerNearer || !above) then some lower
  else if above then some (lower + 1)
  else none

def dropZeros : Nat → Decimal → Decimal
  | 0, d => d
  | fuel + 1, d =>
    if d.digits % 10 = 0 ∧ d.digits ≠ 0 then dropZeros fuel ⟨d.digits / 10, d.exponent + 1⟩ else d

def searchGrids (c : Cell) (leading : Int) : Nat → Int → Decimal
  | 0, tried => ⟨0, leading - tried⟩
  | fuel + 1, tried =>
    match onGrid c (leading - tried) with
    | some digits => ⟨digits, leading - tried⟩
    | none => searchGrids c leading fuel (tried + 1)

-- The fewest digits that read back as the positive value `mantissa * 2 ^ exponent`, and of those
-- the nearest to it. Seventeen always suffice.
def shortest (mantissa : Nat) (exponent : Int) : Decimal :=
  let c := cell mantissa exponent
  let leading := leadingExponent ((Ratio.ofNat c.mid).mul c.unit)
  dropZeros 18 (searchGrids c leading 17 0)

end FieldKernel.Digits
