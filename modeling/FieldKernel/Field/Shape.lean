-- Shapes of fields, and the place of an index in row-by-row order.
namespace FieldKernel

abbrev Shape := List Nat

inductive IndexFault where
  | coordinateCount (given rank : Nat)
  | outOfRange (index : Int) (extent axis : Nat)
  deriving DecidableEq, Repr

namespace Shape

def size (shape : Shape) : Nat := shape.foldr (· * ·) 1

-- Sizes and positions are counted in words of 64 bits.
def word (n : Nat) : Nat := n % 18446744073709551616

-- How many elements there is storage for.
def stored (shape : Shape) : Nat := word shape.size

-- Axes from `axis` on; `offset` counts the rows before.
def offsetFrom (offset axis : Nat) : Shape → List Int → Except IndexFault Nat
  | extent :: shape, i :: index =>
    if i < 0 ∨ (extent : Int) ≤ i then .error (.outOfRange i extent axis)
    else offsetFrom (offset * extent + i.toNat) (axis + 1) shape index
  | _, _ => .ok offset

-- The position of an index among all indices of the shape, row by row.
def offset (shape : Shape) (index : List Int) : Except IndexFault Nat :=
  if index.length = shape.length then offsetFrom 0 0 shape index
  else .error (.coordinateCount index.length shape.length)

def text (shape : Shape) : String :=
  "[" ++ String.intercalate ", " (shape.map toString) ++ "]"

end Shape

end FieldKernel
