import FieldKernel.Field.Table
import FieldKernel.Proofs.NameMap
import FieldKernel.Proofs.Outcome

-- When accesses to a field table succeed and what they give.
namespace FieldKernel

variable {α : Type} [Scalar α]

namespace Shape

theorem offsetFrom_lt {offset axis position bound : Nat} {shape : Shape} {index : List Int}
    (found : shape.offsetFrom offset axis index = .ok position)
    (rank : index.length = shape.length) (start : offset < bound) :
    position < bound * shape.size := by
  induction shape generalizing offset axis index bound with
  | nil =>
    cases index with
    | nil =>
      cases found
      simpa [size] using start
    | cons i index => simp at rank
  | cons extent shape ih =>
    cases index with
    | nil => simp at rank
    | cons i index =>
      rw [offsetFrom] at found
      split at found
      · cases found
      · next inside =>
        have inner : offset * extent + i.toNat < bound * extent := by
          have digit : i.toNat < extent := by omega
          calc offset * extent + i.toNat < offset * extent + extent := by omega
            _ = (offset + 1) * extent := by rw [Nat.add_mul, Nat.one_mul]
            _ ≤ bound * extent := Nat.mul_le_mul_right _ start
        have := ih found (by simpa using rank) inner
        simpa [size, Nat.mul_assoc] using this

theorem offset_lt {shape : Shape} {index : List Int} {position : Nat}
    (found : shape.offset index = .ok position) : position < shape.size := by
  rw [offset] at found
  split at found
  · next rank => simpa using offsetFrom_lt found rank (Nat.zero_lt_one)
  · cases found

theorem stored_eq {shape : Shape} (small : shape.size < 18446744073709551616) : shape.stored = shape.size :=
  Nat.mod_eq_of_lt small

end Shape

theorem onField_ok {β : Type} {name : String} {x : Except FieldFault β} {b : β} :
    onField name x = .ok b ↔ x = .ok b := by
  cases x <;> simp [onField]

namespace Field

omit [Scalar α] in
theorem offset_ok {field : Field α} {index : List Int} {position : Nat} :
    field.offset index = .ok position ↔ field.shape.offset index = .ok position := by
  unfold offset
  split <;> simp_all

omit [Scalar α] in
theorem position_eq {field : Field α} (small : field.shape.size ≤ 18446744073709551616) (index : List Int) :
    field.position index = field.offset index := by
  unfold position
  cases at_ : field.offset index with
  | error => rfl
  | ok p =>
    have within := Shape.offset_lt (offset_ok.mp at_)
    exact congrArg Except.ok (Nat.mod_eq_of_lt (Nat.lt_of_lt_of_le within small))

omit [Scalar α] in
theorem position_lt {field : Field α} (small : field.shape.size < 18446744073709551616) {index : List Int}
    {position : Nat} (counted : field.position index = .ok position) : position < field.shape.stored := by
  rw [position_eq (Nat.le_of_lt small)] at counted
  rw [Shape.stored_eq small]
  exact Shape.offset_lt (offset_ok.mp counted)

omit [Scalar α] in
theorem position_shape {field field' : Field α} (same : field'.shape = field.shape) (index : List Int) :
    field'.position index = field.position index := by
  unfold position offset
  rw [same]

omit [Scalar α] in
theorem locate_shape {field field' : Field α} (same : field'.shape = field.shape) (index : List Int) :
    field'.locate index = field.locate index := by
  unfold locate
  rw [position_shape same, same]

omit [Scalar α] in
theorem locate_ok {field : Field α} {index : List Int} {position : Nat} :
    field.locate index = .ok position ↔ field.position index = .ok position ∧ position < field.shape.stored := by
  simp only [locate, Except.bind_ok]
  constructor
  · rintro ⟨p, found, inside⟩
    split at inside
    · next within =>
      cases inside
      exact ⟨found, within⟩
    · cases inside
  · rintro ⟨found, within⟩
    exact ⟨position, found, if_pos within⟩

omit [Scalar α] in
theorem grad_ok {field : Field α} {grad : Array α} :
    field.grad = .ok grad ↔ field.grad? = some grad := by
  unfold Field.grad
  split <;> simp_all

theorem read_ok {field : Field α} {index : List Int} {x : α} :
    field.read index = .ok x ↔
      ∃ position, field.locate index = .ok position ∧
        x = field.data.getD position Scalar.zero := by
  simp only [read, Except.bind_ok]
  constructor
  · rintro ⟨position, found, same⟩
    cases same
    exact ⟨position, found, rfl⟩
  · rintro ⟨position, found, rfl⟩
    exact ⟨position, found, rfl⟩

omit [Scalar α] in
theorem gradLocate_ok {field : Field α} {index : List Int} {position : Nat} :
    field.gradLocate index = .ok position ↔
      field.hasGrad = true ∧ field.locate index = .ok position := by
  simp only [gradLocate, Except.bind_ok, grad_ok, hasGrad, Option.isSome_iff_exists]
  exact ⟨fun ⟨g, graded, found⟩ => ⟨⟨g, graded⟩, found⟩, fun ⟨⟨g, graded⟩, found⟩ => ⟨g, graded, found⟩⟩

theorem readGrad_ok {field : Field α} {index : List Int} {x : α} :
    field.readGrad index = .ok x ↔
      ∃ grad position, field.grad? = some grad ∧ field.locate index = .ok position ∧
        x = grad.getD position Scalar.zero := by
  simp only [readGrad, Except.bind_ok, grad_ok]
  constructor
  · rintro ⟨grad, graded, position, found, same⟩
    cases same
    exact ⟨grad, position, graded, found, rfl⟩
  · rintro ⟨grad, position, graded, found, rfl⟩
    exact ⟨grad, graded, position, found, rfl⟩

def gradAt (field : Field α) (position : Nat) : α := (field.grad?.getD #[]).getD position Scalar.zero

end Field

-- A field with more elements than words can count; it has storage for some of them at most.
def FieldTable.Oversized (table : FieldTable α) (name : String) : Prop :=
  ∃ field, table.find? name = some field ∧ 18446744073709551616 ≤ field.shape.size

namespace FieldTable

variable {table : FieldTable α} {name : String} {index : List Int}

omit [Scalar α] in
theorem field_ok {field : Field α} : table.field name = .ok field ↔ table.find? name = some field := by
  unfold FieldTable.field
  split <;> simp_all

theorem read_ok {x : α} :
    table.read name index = .ok x ↔
      ∃ field position, table.find? name = some field ∧ field.locate index = .ok position ∧
        x = field.data.getD position Scalar.zero := by
  simp only [read, Except.bind_ok, field_ok, onField_ok, Field.read_ok]
  exact ⟨fun ⟨f, found, p, rest⟩ => ⟨f, p, found, rest⟩, fun ⟨f, p, found, rest⟩ => ⟨f, found, p, rest⟩⟩

omit [Scalar α] in
theorem locate_ok {position : Nat} :
    table.locate name index = .ok position ↔
      ∃ field, table.find? name = some field ∧ field.locate index = .ok position := by
  simp only [locate, Except.bind_ok, field_ok, onField_ok]

omit [Scalar α] in
theorem gradLocate_ok {position : Nat} :
    table.gradLocate name index = .ok position ↔
      ∃ field, table.find? name = some field ∧ field.hasGrad = true ∧
        field.locate index = .ok position := by
  simp only [gradLocate, Except.bind_ok, field_ok, onField_ok, Field.gradLocate_ok]

def gradAt (table : FieldTable α) (name : String) (position : Nat) : α :=
  match table.find? name with
  | some field => field.gradAt position
  | none => Scalar.zero

theorem readGrad_ok {x : α} :
    table.readGrad name index = .ok x ↔
      ∃ field position, table.find? name = some field ∧ field.hasGrad = true ∧
        field.locate index = .ok position ∧ x = table.gradAt name position := by
  simp only [readGrad, Except.bind_ok, field_ok, onField_ok, Field.readGrad_ok]
  constructor
  · rintro ⟨field, found, grad, position, graded, at_, rfl⟩
    exact ⟨field, position, found, by simp [Field.hasGrad, graded], at_,
      by simp [gradAt, found, Field.gradAt, graded]⟩
  · rintro ⟨field, position, found, graded, at_, rfl⟩
    obtain ⟨grad, graded⟩ := Option.isSome_iff_exists.mp graded
    exact ⟨field, found, grad, position, graded, at_, by simp [gradAt, found, Field.gradAt, graded]⟩

theorem declare_ok {element : ElementType} {shape : Shape} {group : String} {table' : FieldTable α} :
    table.declare name element shape group = .ok table' ↔
      table.contains name = false ∧ table' = table.insert name (.allocate element shape group) := by
  unfold declare
  split
  · next there => simp [there]
  · next absent => simp [absent, eq_comm]

@[simp] theorem find?_setAt (key : String) (position : Nat) (value : α) :
    (table.setAt name position value).find? key =
      if key = name then (table.find? key).map fun field => field.setAt position value
      else table.find? key := NameMap.find?_modify _ _ _ _

@[simp] theorem find?_addGradAt (key : String) (position : Nat) (delta : α) :
    (table.addGradAt name position delta).find? key =
      if key = name then (table.find? key).map fun field => field.addGradAt position delta
      else table.find? key := NameMap.find?_modify _ _ _ _

end FieldTable

end FieldKernel
