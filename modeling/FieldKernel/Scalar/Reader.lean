import FieldKernel.Scalar.Basic

-- Numbers as users write them: an optional sign, then digits with a point and an exponent, or one of
-- the words `inf`, `infinity` and `nan` in any case.
namespace FieldKernel.Scalar

variable {α : Type} [Scalar α]

def unsigned? (cs : List Char) : Option α :=
  let word := String.ofList (cs.map Char.toLower)
  if word = "inf" ∨ word = "infinity" then some infinity
  else if word = "nan" then some nan
  else (Decimal.ofText? cs).map ofDecimal

def ofText? : List Char → Option α
  | '-' :: cs => (unsigned? cs).map fun x => -x
  | '+' :: cs => unsigned? cs
  | cs => unsigned? cs

end FieldKernel.Scalar
