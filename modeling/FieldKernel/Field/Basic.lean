import FieldKernel.Domain
import FieldKernel.Field.Element

-- Fields: arrays of numbers with an element type, and gradient storage once it is enabled. Numbers
-- written to a field are cast to its element type; gradients are kept as they are.
namespace FieldKernel

variable {α : Type} [Scalar α]

structure Field (α : Type) where
  group : String
  element : ElementType
  shape : Shape
  -- row by row
  data : Array α
  grad? : Option (Array α)
  deriving DecidableEq, Repr

inductive FieldFault where
  | ungraded
  | index (fault : IndexFault)
  -- an element that there is no storage for
  | overrun (position stored : Nat)
  deriving DecidableEq, Repr

def rootGroup : String := "root"

namespace Field

def allocate (element : ElementType) (shape : Shape) (group : String) : Field α :=
  ⟨group, element, shape, Array.replicate shape.stored Scalar.zero, none⟩

def signature (field : Field α) : Signature := ⟨field.element, field.shape⟩

def hasGrad (field : Field α) : Bool := field.grad?.isSome

def enableGradient (field : Field α) : Field α :=
  if field.element.isReal && field.grad?.isNone then
    { field with grad? := some (Array.replicate field.data.size Scalar.zero) }
  else field

def offset (field : Field α) (index : List Int) : Except FieldFault Nat :=
  match field.shape.offset index with
  | .ok position => .ok position
  | .error fault => .error (.index fault)

def position (field : Field α) (index : List Int) : Except FieldFault Nat :=
  Shape.word <$> field.offset index

def locate (field : Field α) (index : List Int) : Except FieldFault Nat := do
  let position ← field.position index
  if position < field.shape.stored then return position
  else throw (.overrun position field.shape.stored)

def grad (field : Field α) : Except FieldFault (Array α) :=
  match field.grad? with
  | some grad => .ok grad
  | none => .error .ungraded

def read (field : Field α) (index : List Int) : Except FieldFault α := do
  let position ← field.locate index
  return field.data.getD position Scalar.zero

def setAt (field : Field α) (position : Nat) (value : α) : Field α :=
  { field with data := field.data.setIfInBounds position (field.element.cast value) }

def write (field : Field α) (index : List Int) (value : α) : Except FieldFault (Field α) := do
  return field.setAt (← field.locate index) value

-- Without gradients there is no position, whatever the index.
def gradLocate (field : Field α) (index : List Int) : Except FieldFault Nat := do
  let _ ← field.grad
  field.locate index

def readGrad (field : Field α) (index : List Int) : Except FieldFault α := do
  let grad ← field.grad
  let position ← field.locate index
  return grad.getD position Scalar.zero

-- Adds to a gradient; gradients are never overwritten by a kernel.
def addGradAt (field : Field α) (position : Nat) (delta : α) : Field α :=
  { field with grad? := field.grad?.map fun grad => grad.modify position (· + delta) }

def addGrad (field : Field α) (index : List Int) (delta : α) : Except FieldFault (Field α) := do
  return field.addGradAt (← field.gradLocate index) delta

def fill (field : Field α) (value : α) : Field α :=
  { field with data := field.data.map fun _ => field.element.cast value }

def fillGrad (field : Field α) (value : α) : Except FieldFault (Field α) := do
  let grad ← field.grad
  return { field with grad? := some (grad.map fun _ => value) }

def zeroGrad (field : Field α) : Field α :=
  { field with grad? := field.grad?.map fun grad => grad.map fun _ => Scalar.zero }

def indexAt (field : Field α) (k : Nat) : List Int :=
  (Domain.ofExtents field.shape).point k

end Field

structure Snapshot (α : Type) where
  data : Array α
  grad? : Option (Array α)
  deriving DecidableEq, Repr

def Field.restore (field : Field α) (saved : Snapshot α) : Field α :=
  { field with data := saved.data, grad? := saved.grad?.or field.grad? }

end FieldKernel
