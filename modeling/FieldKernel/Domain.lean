-- Iteration domains: boxes of integer points, and the two orders in which their points are visited.
namespace FieldKernel

inductive VisitOrder where
  -- row by row, the last axis fastest
  | forward
  -- the exact reversal
  | reverse
  deriving DecidableEq, Repr

namespace VisitOrder

def name : VisitOrder → String
  | forward => "forward"
  | reverse => "reverse"

def ofName? (text : String) : Option VisitOrder :=
  [forward, reverse].find? fun order => order.name = text

end VisitOrder

-- The integers from `lo` up to but without `hi`; none if `hi` is not above `lo`.
structure Axis where
  lo : Int
  hi : Int
  deriving DecidableEq, Repr

def Axis.extent (axis : Axis) : Nat := (axis.hi - axis.lo).toNat

def Axis.text (axis : Axis) : String := toString axis.lo ++ ".." ++ toString axis.hi

structure Domain where
  axes : List Axis
  deriving DecidableEq, Repr

abbrev Point := List Int

namespace Domain

def ofExtents (extents : List Nat) : Domain := ⟨extents.map fun (n : Nat) => ⟨0, n⟩⟩

def rank (domain : Domain) : Nat := domain.axes.length

def extents (domain : Domain) : List Nat := domain.axes.map Axis.extent

def size (domain : Domain) : Nat := domain.extents.foldr (· * ·) 1

def isEmpty (domain : Domain) : Bool := domain.size = 0

-- Coordinates from the last axis back to the first. An axis without extent ends the division;
-- it and the axes before it get the coordinate zero.
def coordinates : List Axis → Nat → List Int
  | [], _ => []
  | axis :: before, flat =>
    if axis.extent = 0 then 0 :: before.map fun _ => 0
    else (axis.lo + (flat % axis.extent : Nat)) :: coordinates before (flat / axis.extent)

def point (domain : Domain) (flat : Nat) : Point := (coordinates domain.axes.reverse flat).reverse

def positionAt (order : VisitOrder) (size k : Nat) : Nat :=
  match order with
  | .forward => k
  | .reverse => size - 1 - k

def points (domain : Domain) (order : VisitOrder) : List Point :=
  (List.range domain.size).map fun k => domain.point (positionAt order domain.size k)

-- The last `left` of the points in an order, without listing them first.
def visitLast {m : Type → Type} [Monad m] (domain : Domain) (order : VisitOrder)
    (act : Point → m Unit) : Nat → m Unit
  | 0 => pure ()
  | left + 1 => do
    act (domain.point (positionAt order domain.size (domain.size - (left + 1))))
    domain.visitLast order act left

def visit {m : Type → Type} [Monad m] (domain : Domain) (order : VisitOrder)
    (act : Point → m Unit) : m Unit := domain.visitLast order act domain.size

def text (domain : Domain) : String :=
  "[" ++ String.intercalate ", " (domain.axes.map Axis.text) ++ "]"

end Domain

end FieldKernel
