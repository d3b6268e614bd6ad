import FieldKernel.Proofs.Field.Table

-- How a pass may change a table: numbers in some buffers, and nothing of how the fields are made.
namespace FieldKernel

variable {α : Type}

structure Field.Altered (data grad : Prop) (before after : Field α) : Prop where
  group : after.group = before.group
  element : after.element = before.element
  shape : after.shape = before.shape
  dataSize : after.data.size = before.data.size
  gradSize : after.grad?.map Array.size = before.grad?.map Array.size
  keepsData : ¬data → after.data = before.data
  keepsGrad : ¬grad → after.grad? = before.grad?

namespace Field.Altered

variable {data grad data' grad' : Prop} {a b c : Field α}

theorem refl (field : Field α) : Altered data grad field field :=
  ⟨rfl, rfl, rfl, rfl, rfl, fun _ => rfl, fun _ => rfl⟩

theorem trans (first : Altered data grad a b) (second : Altered data grad b c) : Altered data grad a c where
  group := second.group.trans first.group
  element := second.element.trans first.element
  shape := second.shape.trans first.shape
  dataSize := second.dataSize.trans first.dataSize
  gradSize := second.gradSize.trans first.gradSize
  keepsData := fun kept => (second.keepsData kept).trans (first.keepsData kept)
  keepsGrad := fun kept => (second.keepsGrad kept).trans (first.keepsGrad kept)

theorem symm (altered : Altered data grad a b) : Altered data grad b a where
  group := altered.group.symm
  element := altered.element.symm
  shape := altered.shape.symm
  dataSize := altered.dataSize.symm
  gradSize := altered.gradSize.symm
  keepsData := fun kept => (altered.keepsData kept).symm
  keepsGrad := fun kept => (altered.keepsGrad kept).symm

theorem mono (altered : Altered data grad a b) (moreData : data → data') (moreGrad : grad → grad') :
    Altered data' grad' a b :=
  { altered with
    keepsData := fun kept => altered.keepsData fun d => kept (moreData d)
    keepsGrad := fun kept => altered.keepsGrad fun g => kept (moreGrad g) }

theorem hasGrad (altered : Altered data grad a b) : b.hasGrad = a.hasGrad := by
  have := congrArg Option.isSome altered.gradSize
  simpa [Field.hasGrad] using this

theorem signature (altered : Altered data grad a b) : b.signature = a.signature := by
  simp [Field.signature, altered.element, altered.shape]

end Field.Altered

theorem Field.altered_setAt [Scalar α] {data grad : Prop} (written : data) (field : Field α)
    (position : Nat) (value : α) : Altered data grad field (field.setAt position value) :=
  ⟨rfl, rfl, rfl, by simp [setAt], rfl, fun kept => absurd written kept, fun _ => rfl⟩

theorem Field.altered_addGradAt [Scalar α] {data grad : Prop} (written : grad) (field : Field α)
    (position : Nat) (delta : α) : Altered data grad field (field.addGradAt position delta) := by
  refine ⟨rfl, rfl, rfl, rfl, ?_, fun _ => rfl, fun kept => absurd written kept⟩
  cases stored : field.grad? <;> simp [addGradAt, stored]

def FieldTable.Altered (writes gradWrites : String → Prop) (before after : FieldTable α) : Prop :=
  ∀ name, Option.Rel (Field.Altered (writes name) (gradWrites name)) (before.find? name)
    (after.find? name)

namespace FieldTable.Altered

variable {writes gradWrites writes' gradWrites' : String → Prop} {a b c : FieldTable α}

theorem refl (table : FieldTable α) : Altered writes gradWrites table table :=
  fun _ => answers_refl .refl _

theorem trans (first : Altered writes gradWrites a b) (second : Altered writes gradWrites b c) :
    Altered writes gradWrites a c :=
  fun name => answers_trans (first name) (second name) fun _ _ _ => .trans

theorem symm (altered : Altered writes gradWrites a b) : Altered writes gradWrites b a :=
  fun name => answers_symm (altered name) fun _ _ => .symm

theorem mono (altered : Altered writes gradWrites a b) (more : ∀ name, writes name → writes' name)
    (moreGrad : ∀ name, gradWrites name → gradWrites' name) : Altered writes' gradWrites' a b :=
  fun name => answers_mono (altered name) fun _ _ _ changed => changed.mono (more name) (moreGrad name)

theorem find (altered : Altered writes gradWrites a b) {name : String} {field : Field α}
    (found : a.find? name = some field) : ∃ field', b.find? name = some field' ∧
      field.Altered (writes name) (gradWrites name) field' := answers_find (altered name) found

theorem find_back (altered : Altered writes gradWrites a b) {name : String} {field : Field α}
    (found : b.find? name = some field) : ∃ field', a.find? name = some field' ∧
      field'.Altered (writes name) (gradWrites name) field := answers_find_back (altered name) found

theorem find_eq (altered : Altered writes gradWrites a b) {name : String} (kept : ¬writes name)
    (keptGrad : ¬gradWrites name) : b.find? name = a.find? name := by
  cases found : a.find? name with
  | none => exact answers_missing (altered name) found
  | some field =>
    obtain ⟨field', stored, changed⟩ := altered.find found
    have same : field' = field := by
      cases field
      cases field'
      have := changed.group
      have := changed.element
      have := changed.shape
      have := changed.keepsData kept
      have := changed.keepsGrad keptGrad
      simp_all
    rw [stored, same]

end FieldTable.Altered

-- Every field stays, with its signature; fields may be added.
def FieldTable.Keeps (before after : FieldTable α) : Prop :=
  ∀ name field, before.find? name = some field →
    ∃ field', after.find? name = some field' ∧ field'.signature = field.signature

namespace FieldTable

variable {a b c : FieldTable α}

theorem Keeps.refl (table : FieldTable α) : table.Keeps table := fun _ field found => ⟨field, found, rfl⟩

theorem Keeps.trans (first : a.Keeps b) (second : b.Keeps c) : a.Keeps c := fun name field found => by
  obtain ⟨field', found', same⟩ := first name field found
  obtain ⟨field'', found'', same'⟩ := second name field' found'
  exact ⟨field'', found'', same'.trans same⟩

theorem Keeps.contains (keeps : a.Keeps b) {name : String} (there : a.contains name = true) :
    b.contains name = true := by
  obtain ⟨field, found⟩ := NameMap.contains_iff.mp there
  obtain ⟨field', found', -⟩ := keeps name field found
  exact NameMap.contains_iff.mpr ⟨field', found'⟩

theorem Altered.keeps {writes gradWrites : String → Prop} (altered : Altered writes gradWrites a b) :
    a.Keeps b := fun name field found => by
  obtain ⟨field', found', changed⟩ := altered.find found
  exact ⟨field', found', changed.signature⟩

theorem keeps_mapEntries {f : String → Field α → Field α}
    (same : ∀ name field, (f name field).signature = field.signature) (table : FieldTable α) :
    table.Keeps (table.mapEntries f) := fun name field found =>
  ⟨f name field, by simp [found], same name field⟩

theorem keeps_insert {name : String} {new : Field α}
    (same : ∀ field, a.find? name = some field → new.signature = field.signature) :
    a.Keeps (a.insert name new) := fun key field found => by
  rw [NameMap.find?_insert]
  by_cases here : key = name
  · subst here
    exact ⟨new, if_pos rfl, same field found⟩
  · exact ⟨field, by simp [here, found], rfl⟩

end FieldTable

variable [Scalar α]

theorem FieldTable.altered_setAt {writes gradWrites : String → Prop} {name : String}
    (written : writes name) (table : FieldTable α) (position : Nat) (value : α) :
    Altered writes gradWrites table (table.setAt name position value) := fun key => by
  rw [find?_setAt]
  cases table.find? key with
  | none => simp
  | some field =>
    split
    · next same => exact .some (field.altered_setAt (same ▸ written) position value)
    · exact .some (.refl field)

theorem FieldTable.altered_addGradAt {writes gradWrites : String → Prop} {name : String}
    (written : gradWrites name) (table : FieldTable α) (position : Nat) (delta : α) :
    Altered writes gradWrites table (table.addGradAt name position delta) := fun key => by
  rw [find?_addGradAt]
  cases table.find? key with
  | none => simp
  | some field =>
    split
    · next same => exact .some (field.altered_addGradAt (same ▸ written) position delta)
    · exact .some (.refl field)

end FieldKernel
