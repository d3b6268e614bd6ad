import FieldKernel.Field.Edit
import FieldKernel.Proofs.Field.Altered

-- The buffers of a field have the size that is stored for its shape, whatever is done to a table.
namespace FieldKernel

variable {α : Type} [Scalar α]

structure Field.Sized (field : Field α) : Prop where
  data : field.data.size = field.shape.stored
  grad : ∀ grad ∈ field.grad?, grad.size = field.shape.stored

namespace Field.Sized

variable {field field' : Field α}

theorem allocate (element : ElementType) (shape : Shape) (group : String) :
    (Field.allocate element shape group : Field α).Sized where
  data := by simp [Field.allocate]
  grad := fun _ none_ => by cases none_

omit [Scalar α] in
theorem altered {data grad : Prop} (sized : field.Sized) (altered : field.Altered data grad field') :
    field'.Sized where
  data := by rw [altered.dataSize, altered.shape, sized.data]
  grad := fun grad stored => by
    have sizes := altered.gradSize
    cases before : field.grad? with
    | none => simp [Option.mem_def.mp stored, before] at sizes
    | some old =>
      simp only [Option.mem_def.mp stored, before, Option.map_some, Option.some.injEq] at sizes
      rw [sizes, altered.shape, sized.grad old before]

theorem enableGradient (sized : field.Sized) : field.enableGradient.Sized := by
  unfold Field.enableGradient
  split
  · exact ⟨sized.data, fun grad stored => by cases stored; simp [sized.data]⟩
  · exact sized

end Field.Sized

namespace Field

variable {data grad : Prop}

omit [Scalar α] in
theorem moves_editOnce {step : Field α → Except FieldFault (Field α)}
    (keeps : ∀ field field', step field = .ok field' → field.Altered data grad field') :
    Moves (Altered data grad) (editOnce step) := by
  intro field
  unfold editOnce
  rw [run_get_bind]
  cases stepped : step field with
  | error fault => exact .refl field
  | ok field' => exact keeps field field' stepped

omit [Scalar α] in
theorem moves_editEach {step : Field α → List Int → α → Except FieldFault (Field α)}
    (keeps : ∀ field index value field', step field index value = .ok field' →
      field.Altered data grad field') (k : Nat) (values : List α) :
    Moves (Altered data grad) (editEach step k values) := by
  induction values generalizing k with
  | nil => exact .pure .refl _
  | cons value values ih =>
    intro field
    unfold editEach
    rw [run_get_bind]
    cases stepped : step field (field.indexAt k) value with
    | error fault => exact .refl field
    | ok field' => exact (keeps _ _ _ _ stepped).trans (ih (k + 1) field')

theorem write_altered {field field' : Field α} {index : List Int} {value : α}
    (written : field.write index value = .ok field') : field.Altered True True field' := by
  obtain ⟨position, -, same⟩ := Except.bind_ok.mp written
  cases same
  exact field.altered_setAt trivial position value

theorem addGrad_altered {field field' : Field α} {index : List Int} {delta : α}
    (added : field.addGrad index delta = .ok field') : field.Altered data True field' := by
  obtain ⟨position, -, same⟩ := Except.bind_ok.mp added
  cases same
  exact field.altered_addGradAt trivial position delta

theorem fill_altered (field : Field α) (value : α) : field.Altered True True (field.fill value) :=
  ⟨rfl, rfl, rfl, by simp [fill], rfl, fun kept => absurd trivial kept, fun kept => absurd trivial kept⟩

omit [Scalar α] in
theorem fillGrad_altered {field field' : Field α} {value : α} (filled : field.fillGrad value = .ok field') :
    field.Altered data True field' := by
  obtain ⟨grad, stored, same⟩ := Except.bind_ok.mp filled
  cases same
  exact ⟨rfl, rfl, rfl, rfl, by simp [grad_ok.mp stored], fun _ => rfl, fun kept => absurd trivial kept⟩

theorem zeroGrad_altered (field : Field α) : field.Altered False True field.zeroGrad := by
  refine ⟨rfl, rfl, rfl, rfl, ?_, fun _ => rfl, fun kept => absurd trivial kept⟩
  cases stored : field.grad? <;> simp [zeroGrad, stored]

theorem moves_edit {P : Field α → Field α → Prop} (altered : ∀ a b, Altered True True a b → P a b)
    (enabled : ∀ a, P a a.enableGradient) (edit : FieldEdit α) : Moves P (Field.edit edit) := by
  have keep : ∀ {β : Type} {x : EStateM FieldFault (Field α) β}, Moves (Altered True True) x →
      Moves P x := fun moves field => altered _ _ (moves field)
  have each : ∀ {step : Field α → List Int → α → Except FieldFault (Field α)} (values : List α),
      (∀ field index value field', step field index value = .ok field' →
        field.Altered True True field') →
      Moves (Altered True True) (do editEach step 0 values; return (FieldAnswer.edited : FieldAnswer α)) :=
    fun values keeps => Moves.bind (fun _ _ _ => .trans) (moves_editEach keeps 0 values)
      fun _ => .pure .refl _
  cases edit with
  | write index value => exact keep (moves_editOnce fun _ _ => write_altered)
  | addGrad index delta => exact keep (moves_editOnce fun _ _ => addGrad_altered)
  | fill value =>
    have filled : ∀ field field' : Field α,
        (.ok (field.fill value) : Except FieldFault (Field α)) = .ok field' →
          field.Altered True True field' := fun field _ same => Except.ok.inj same ▸ field.fill_altered value
    exact keep (moves_editOnce filled)
  | fillGrad value => exact keep (moves_editOnce fun _ _ => fillGrad_altered)
  | zeroGrad =>
    have zeroed : ∀ field field' : Field α,
        (.ok field.zeroGrad : Except FieldFault (Field α)) = .ok field' →
          field.Altered True True field' :=
      fun field _ same => Except.ok.inj same ▸ field.zeroGrad_altered.mono (fun _ => trivial) id
    exact keep (moves_editOnce zeroed)
  | writeAll values => exact keep (each values fun _ _ _ _ => write_altered)
  | addGrads deltas => exact keep (each deltas fun _ _ _ _ => addGrad_altered)
  | enableGradient => exact enabled

theorem signature_enableGradient (field : Field α) : field.enableGradient.signature = field.signature := by
  unfold enableGradient
  split <;> rfl

end Field

def FieldTable.Sized (table : FieldTable α) : Prop :=
  ∀ name field, table.find? name = some field → field.Sized

namespace FieldTable

variable {table table' : FieldTable α}

omit [Scalar α] in
theorem Sized.altered {writes gradWrites : String → Prop} (sized : table.Sized)
    (altered : table.Altered writes gradWrites table') : table'.Sized := by
  intro name field found
  obtain ⟨before, stored, changed⟩ := altered.find_back found
  exact (sized name before stored).altered changed

omit [Scalar α] in
theorem sized_empty : FieldTable.Sized (NameMap.empty : FieldTable α) := fun _ _ none_ => by cases none_

omit [Scalar α] in
theorem Sized.insert (sized : table.Sized) {name : String} {field : Field α} (new : field.Sized) :
    FieldTable.Sized (NameMap.insert table name field) := by
  intro key other found
  rw [NameMap.find?_insert] at found
  split at found
  · cases found
    exact new
  · exact sized key other found

omit [Scalar α] in
theorem Sized.mapEntries (sized : table.Sized) {f : String → Field α → Field α}
    (each : ∀ name field, field.Sized → (f name field).Sized) :
    FieldTable.Sized (NameMap.mapEntries table f) := by
  intro key other found
  rw [NameMap.find?_mapEntries, Option.map_eq_some_iff] at found
  obtain ⟨field, stored, rfl⟩ := found
  exact each key field (sized key field stored)

theorem Sized.declare (sized : table.Sized) {name : String} {element : ElementType} {shape : Shape}
    {group : String} (declared : table.declare name element shape group = .ok table') : table'.Sized := by
  obtain ⟨-, rfl⟩ := declare_ok.mp declared
  exact sized.insert (.allocate element shape group)

theorem Sized.enableGrads (sized : table.Sized) (group : String) : (table.enableGrads group).Sized := by
  refine sized.mapEntries fun name field fine => ?_
  unfold enableField
  split
  · exact fine.enableGradient
  · exact fine

theorem Sized.zeroGrads (sized : table.Sized) : table.zeroGrads.Sized :=
  sized.mapEntries fun _ field fine => fine.altered field.zeroGrad_altered

theorem moves_edit {P : FieldTable α → FieldTable α → Prop} (refl : ∀ table, P table table)
    {Q : Field α → Field α → Prop} (altered : ∀ a b, Field.Altered True True a b → Q a b)
    (enabled : ∀ a, Q a a.enableGradient) {name : String}
    (inserted : ∀ (table : FieldTable α) (field field' : Field α), table.find? name = some field →
      Q field field' → P table (table.insert name field')) (edit : FieldEdit α) :
    Moves P (FieldTable.edit name edit) := by
  intro table
  unfold FieldTable.edit
  rw [run_get_bind]
  cases found : table.field name with
  | error fault => exact refl table
  | ok field =>
    have moved := Field.moves_edit altered enabled edit field
    cases edited : Field.edit edit field with
    | ok answer field' =>
      rw [edited] at moved
      simp only [EStateM.run, edited]
      exact inserted table field field' (field_ok.mp found) moved
    | error fault field' =>
      rw [edited] at moved
      simp only [EStateM.run, edited]
      exact inserted table field field' (field_ok.mp found) moved

theorem Sized.edit (name : String) (edit : FieldEdit α) :
    Moves (fun a b : FieldTable α => a.Sized → b.Sized) (FieldTable.edit name edit) :=
  moves_edit (fun _ => id) (Q := fun a b => a.Sized → b.Sized) (fun _ _ altered sized => sized.altered altered)
    (fun _ sized => sized.enableGradient)
    (fun _ field _ found step sized => sized.insert (step (sized name field found))) edit

theorem keeps_edit (name : String) (edit : FieldEdit α) :
    Moves Keeps (FieldTable.edit name edit : EStateM KernelFault (FieldTable α) (FieldAnswer α)) :=
  moves_edit .refl (Q := fun a b => b.signature = a.signature) (fun _ _ altered => altered.signature)
    Field.signature_enableGradient (fun _ field _ found same => keeps_insert fun other stored => by
      cases found.symm.trans stored
      exact same) edit

theorem keeps_declare {name : String} {element : ElementType} {shape : Shape} {group : String}
    (declared : table.declare name element shape group = .ok table') : table.Keeps table' := by
  obtain ⟨absent, rfl⟩ := declare_ok.mp declared
  refine keeps_insert fun field found => ?_
  rw [NameMap.contains_iff.mpr ⟨field, found⟩] at absent
  cases absent

theorem keeps_enableGrads (table : FieldTable α) (group : String) : table.Keeps (table.enableGrads group) := by
  refine keeps_mapEntries (fun name field => ?_) table
  unfold enableField
  split
  · exact field.signature_enableGradient
  · rfl

theorem keeps_zeroGrads (table : FieldTable α) : table.Keeps table.zeroGrads :=
  keeps_mapEntries (fun _ field => field.zeroGrad_altered.signature) table

end FieldTable

end FieldKernel
