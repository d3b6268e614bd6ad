import FieldKernel.Field.Table

-- Questions to a field and edits of it, as data.
namespace FieldKernel

variable {α : Type} [Scalar α]

inductive FieldQuery where
  | whole
  | offset (index : List Int)
  | read (index : List Int)
  | readGrad (index : List Int)
  | data
  | grads
  deriving DecidableEq, Repr

inductive FieldEdit (α : Type) where
  | write (index : List Int) (value : α)
  | addGrad (index : List Int) (delta : α)
  | fill (value : α)
  | fillGrad (value : α)
  | zeroGrad
  -- element by element from the first one on
  | writeAll (values : List α)
  | addGrads (deltas : List α)
  | enableGradient
  deriving DecidableEq, Repr

inductive FieldAnswer (α : Type) where
  | whole (field : Field α)
  | position (n : Nat)
  | number (value : α)
  | numbers (values : List α)
  | enabled (real : Bool)
  | edited
  deriving DecidableEq, Repr

namespace Field

def answer (field : Field α) : FieldQuery → Except FieldFault (FieldAnswer α)
  | .whole => .ok (.whole field)
  | .offset index => .position <$> field.position index
  | .read index => .number <$> field.read index
  | .readGrad index => .number <$> field.readGrad index
  | .data => .ok (.numbers field.data.toList)
  | .grads => (.numbers ·.toList) <$> field.grad

-- Stops at the first fault and keeps what was done before.
def editEach (step : Field α → List Int → α → Except FieldFault (Field α)) :
    Nat → List α → EStateM FieldFault (Field α) Unit
  | _, [] => pure ()
  | k, value :: values => do
    let field ← get
    match step field (field.indexAt k) value with
    | .ok field =>
      set field
      editEach step (k + 1) values
    | .error fault => throw fault

def editOnce (step : Field α → Except FieldFault (Field α)) :
    EStateM FieldFault (Field α) (FieldAnswer α) := do
  match step (← get) with
  | .ok field =>
    set field
    return .edited
  | .error fault => throw fault

def edit : FieldEdit α → EStateM FieldFault (Field α) (FieldAnswer α)
  | .write index value => editOnce fun field => field.write index value
  | .addGrad index delta => editOnce fun field => field.addGrad index delta
  | .fill value => editOnce fun field => .ok (field.fill value)
  | .fillGrad value => editOnce fun field => field.fillGrad value
  | .zeroGrad => editOnce fun field => .ok field.zeroGrad
  | .writeAll values => do
    editEach Field.write 0 values
    return .edited
  | .addGrads deltas => do
    editEach Field.addGrad 0 deltas
    return .edited
  | .enableGradient => do
    modify enableGradient
    return .enabled (← get).element.isReal

end Field

namespace FieldTable

def answer (table : FieldTable α) (name : String) (query : FieldQuery) :
    Except KernelFault (FieldAnswer α) := do
  onField name ((← table.field name).answer query)

def edit (name : String) (edit : FieldEdit α) :
    EStateM KernelFault (FieldTable α) (FieldAnswer α) := do
  match (← get).field name with
  | .error error => throw error
  | .ok field =>
    match (Field.edit edit).run field with
    | .ok answer field =>
      modify fun table => table.insert name field
      return answer
    | .error fault field =>
      modify fun table => table.insert name field
      throw (fault.error name)

end FieldTable

end FieldKernel
