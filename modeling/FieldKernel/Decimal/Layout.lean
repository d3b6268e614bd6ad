import FieldKernel.Decimal.Digits

-- How a double is written: in kernel texts and answers, in messages, and to a number of significant digits.
namespace FieldKernel

structure NumberLayout where
  -- powers of ten of the leading digit that are written without an exponent
  positional : Int → Bool
  -- an integer keeps a point and a zero
  keepsPoint : Bool

namespace NumberLayout

-- Kernel texts: positional from a ten-thousandth up to below ten to the sixteenth.
def literal : NumberLayout := ⟨fun e => -4 ≤ e && e < 16, true⟩

def message : NumberLayout := ⟨fun _ => true, false⟩

end NumberLayout

namespace Decimal

def intText (i : Int) : String := toString i

def scientificText (d : Decimal) : String :=
  let ds := digitsOfNat d.digits
  let point := if ds.length ≤ 1 then ds else ds.take 1 ++ '.' :: ds.drop 1
  String.ofList point ++ "e" ++ intText (d.exponent + ds.length - 1)

def positionalText (keepsPoint : Bool) (d : Decimal) : String :=
  let ds := digitsOfNat d.digits
  if 0 ≤ d.exponent then
    String.ofList (ds ++ List.replicate d.exponent.toNat '0') ++ if keepsPoint then ".0" else ""
  else
    let places := (-d.exponent).toNat
    let padded := List.replicate (places + 1 - ds.length) '0' ++ ds
    let whole := padded.length - places
    String.ofList (padded.take whole ++ '.' :: padded.drop whole)

def text (layout : NumberLayout) (d : Decimal) : String :=
  if layout.positional (d.exponent + (digitsOfNat d.digits).length - 1) then
    d.positionalText layout.keepsPoint
  else d.scientificText

end Decimal

namespace Binary64

def signed (negative : Bool) (text : String) : String := if negative then "-" ++ text else text

def textWith (zero : String) (positive : Nat → Int → String) : Binary64 → String
  | .nan => "NaN"
  | .infinite negative => signed negative "inf"
  | .finite negative mantissa exponent =>
    signed negative (if mantissa = 0 then zero else positive mantissa exponent)

def text (layout : NumberLayout) : Binary64 → String :=
  textWith (if layout.keepsPoint then "0.0" else "0") fun m e =>
    (Digits.shortest m e).text layout

def significantText (count : Nat) : Binary64 → String :=
  textWith "0.0" fun m e =>
    (Digits.significant count ((Digits.Ratio.ofNat m).mul (Digits.power 2 e))).scientificText

end Binary64

end FieldKernel
