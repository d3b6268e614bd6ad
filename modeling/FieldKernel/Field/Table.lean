import FieldKernel.Error
import FieldKernel.Field.Basic
import FieldKernel.NameMap

-- Field tables. Groups are dotted paths; enabling gradients on a group reaches the groups below it.
namespace FieldKernel

variable {α : Type} [Scalar α]

abbrev FieldTable (α : Type) := NameMap (Field α)

def FieldFault.error (field : String) : FieldFault → KernelFault
  | ungraded => .ungraded field
  | index fault => .shapeMismatch field (.index fault)
  | overrun position stored => .shapeMismatch field (.overrun position stored)

def onField {β : Type} (name : String) : Except FieldFault β → Except KernelFault β
  | .ok b => .ok b
  | .error fault => .error (fault.error name)

-- A group contains its own path and every path below it.
def groupCovers (group path : String) : Bool :=
  path = group || (group.toList ++ ['.']).isPrefixOf path.toList

namespace FieldTable

def field (table : FieldTable α) (name : String) : Except KernelFault (Field α) :=
  match table.find? name with
  | some field => .ok field
  | none => .error (.unknownField name)

def declare (table : FieldTable α) (name : String) (element : ElementType) (shape : Shape)
    (group : String) : Except KernelFault (FieldTable α) :=
  if table.contains name then .error (.alreadyDeclared name)
  else .ok (table.insert name (.allocate element shape group))

def enableField (group : String) (field : Field α) : Field α :=
  if groupCovers group field.group then field.enableGradient else field

def enableGrads (table : FieldTable α) (group : String) : FieldTable α :=
  table.mapEntries fun _ field => enableField group field

def gradedCount (table : FieldTable α) (group : String) : Nat :=
  table.values.countP fun field => groupCovers group field.group && field.element.isReal

def zeroGrads (table : FieldTable α) : FieldTable α :=
  table.mapEntries fun _ field => field.zeroGrad

def read (table : FieldTable α) (name : String) (index : List Int) : Except KernelFault α := do
  onField name ((← table.field name).read index)

def locate (table : FieldTable α) (name : String) (index : List Int) : Except KernelFault Nat := do
  onField name ((← table.field name).locate index)

def setAt (table : FieldTable α) (name : String) (position : Nat) (value : α) : FieldTable α :=
  table.modify name fun field => field.setAt position value

def readGrad (table : FieldTable α) (name : String) (index : List Int) : Except KernelFault α := do
  onField name ((← table.field name).readGrad index)

def gradLocate (table : FieldTable α) (name : String) (index : List Int) :
    Except KernelFault Nat := do
  onField name ((← table.field name).gradLocate index)

def addGradAt (table : FieldTable α) (name : String) (position : Nat) (delta : α) : FieldTable α :=
  table.modify name fun field => field.addGradAt position delta

-- The signatures of those of the named fields that exist.
def signatures (table : FieldTable α) (names : NameSet) : NameMap Signature :=
  .ofList (names.names.filterMap fun name =>
    (table.find? name).map fun field => (name, field.signature))

def snapshot (table : FieldTable α) (primal grads : NameSet) : NameMap (Snapshot α) :=
  .ofList ((primal.union grads).names.filterMap fun name =>
    (table.find? name).map fun field =>
      (name, ⟨field.data, if grads.contains name then field.grad? else none⟩))

def restore (table : FieldTable α) (saved : NameMap (Snapshot α)) : FieldTable α :=
  table.mapEntries fun name field =>
    match saved.find? name with
    | some buffers => field.restore buffers
    | none => field

end FieldTable

end FieldKernel
