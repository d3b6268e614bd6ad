import FieldKernel.Proofs.Field.Sized

-- How fields advance: by numbers that are written to them, and by gradients where these are enabled.
namespace FieldKernel

def segments (path : String) : List (List Char) := path.toList.splitOn '.'

theorem intercalate_append {β : Type} (separator : List β) (a : List (List β)) {b : List (List β)}
    (more : b ≠ []) : separator.intercalate (a ++ b) = if a = [] then separator.intercalate b
      else separator.intercalate a ++ separator ++ separator.intercalate b := by
  induction a with
  | nil => rfl
  | cons first rest ih =>
    rw [if_neg (List.cons_ne_nil _ _)]
    cases rest with
    | nil =>
      cases b with
      | nil => exact absurd rfl more
      | cons => simp [List.intercalate_cons_cons]
    | cons second rest =>
      rw [if_neg (List.cons_ne_nil _ _)] at ih
      simp only [List.cons_append, List.intercalate_cons_cons, List.append_assoc] at ih ⊢
      rw [ih]

theorem groupCovers_iff {group path : String} :
    groupCovers group path = true ↔ segments group <+: segments path := by
  rw [groupCovers, Bool.or_eq_true, decide_eq_true_iff, List.isPrefixOf_iff_prefix, segments, segments]
  constructor
  · rintro (rfl | ⟨rest, longer⟩)
    · exact List.prefix_refl _
    · rw [← longer, List.append_assoc, List.singleton_append, List.splitOn_append_cons_self]
      exact List.prefix_append _ _
  · rintro ⟨parts, longer⟩
    have whole : List.intercalate ['.'] (path.toList.splitOn '.') = path.toList := List.intercalate_splitOn '.'
    rw [← longer] at whole
    cases parts with
    | nil =>
      rw [List.append_nil, List.intercalate_splitOn] at whole
      exact .inl (String.toList_inj.mp whole.symm)
    | cons part parts =>
      rw [intercalate_append _ _ (List.cons_ne_nil _ _), if_neg (List.splitOn_ne_nil _ _),
        List.intercalate_splitOn] at whole
      exact .inr ⟨_, whole⟩

variable {α : Type} [Scalar α]

-- From one state of a field to a later one. `written` are the numbers that were written to it.
structure Field.Advances (written : α → Prop) (enabled : Prop) (before after : Field α) : Prop where
  group : after.group = before.group
  element : after.element = before.element
  shape : after.shape = before.shape
  data : ∀ x ∈ after.data, x ∈ before.data ∨ ∃ v, written v ∧ x = after.element.cast v
  hasGrad : after.hasGrad = true ↔ before.hasGrad = true ∨ (before.element.isReal = true ∧ enabled)

namespace Field.Advances

variable {written written' : α → Prop} {enabled enabled' : Prop} {a b c : Field α}

theorem refl (never : ¬enabled) (field : Field α) : field.Advances written enabled field :=
  ⟨rfl, rfl, rfl, fun _ there => .inl there, by simp [never]⟩

theorem trans (first : a.Advances written False b) (second : b.Advances written enabled c) :
    a.Advances written enabled c where
  group := second.group.trans first.group
  element := second.element.trans first.element
  shape := second.shape.trans first.shape
  data := fun x there => by
    rcases second.data x there with old | new
    · rcases first.data x old with older | ⟨v, given, cast⟩
      · exact .inl older
      · exact .inr ⟨v, given, cast.trans (by rw [second.element])⟩
    · exact .inr new
  hasGrad := by rw [second.hasGrad, first.hasGrad, first.element]; simp

theorem mono (advances : a.Advances written enabled b) (more : ∀ v, written v → written' v)
    (same : enabled ↔ enabled') : a.Advances written' enabled' b :=
  { advances with
    data := fun x there => (advances.data x there).imp_right fun ⟨v, given, cast⟩ => ⟨v, more v given, cast⟩
    hasGrad := by rw [advances.hasGrad, same] }

end Field.Advances

theorem Field.Altered.advances {grad : Prop} {written : α → Prop} {a b : Field α}
    (altered : a.Altered False grad b) : a.Advances written False b where
  group := altered.group
  element := altered.element
  shape := altered.shape
  data := fun x there => .inl (altered.keepsData id ▸ there)
  hasGrad := by rw [altered.hasGrad]; simp

-- The numbers that an edit writes to the data of a field. Of several it writes those before the first one
-- that has no place.
inductive Field.Writes (field : Field α) : FieldEdit α → α → Prop
  | write {index : List Int} {value : α} {field' : Field α} (done : field.write index value = .ok field') :
      Writes field (.write index value) value
  | fill (value : α) : Writes field (.fill value) value
  | writeAll {before : List α} {value : α} {after : List α} {field' : Field α}
      (done : editEach Field.write 0 (before ++ [value]) field = .ok () field') :
      Writes field (.writeAll (before ++ value :: after)) value

namespace Field

variable {written : α → Prop}

theorem advances_setAt {value : α} (given : written value) (field : Field α) (position : Nat) :
    field.Advances written False (field.setAt position value) where
  group := rfl
  element := rfl
  shape := rfl
  data := fun x there => by
    rcases Array.mem_or_eq_of_mem_setIfInBounds there with old | new
    · exact .inl old
    · exact .inr ⟨value, given, new⟩
  hasGrad := by simp [setAt, Field.hasGrad]

theorem advances_fill {value : α} (given : written value) (field : Field α) :
    field.Advances written False (field.fill value) where
  group := rfl
  element := rfl
  shape := rfl
  data := fun x there => by
    obtain ⟨-, -, rfl⟩ := Array.mem_map.mp there
    exact .inr ⟨value, given, rfl⟩
  hasGrad := by simp [fill, Field.hasGrad]

theorem advances_enableGradient {enabled : Prop} (holds : enabled) (field : Field α) :
    field.Advances written enabled field.enableGradient := by
  unfold enableGradient
  split
  · next missing =>
    obtain ⟨real, -⟩ := Bool.and_eq_true_iff.mp missing
    exact ⟨rfl, rfl, rfl, fun x there => .inl there, by simp [Field.hasGrad, real, holds]⟩
  · next kept =>
    refine ⟨rfl, rfl, rfl, fun x there => .inl there, ?_⟩
    cases real : field.element.isReal <;> cases stored : field.grad? <;> simp_all [Field.hasGrad]

omit [Scalar α] in
theorem editEach_append (step : Field α → List Int → α → Except FieldFault (Field α)) (k : Nat) (a b : List α) :
    editEach step k (a ++ b) = (do editEach step k a; editEach step (k + a.length) b) := by
  induction a generalizing k with
  | nil => rfl
  | cons value rest ih =>
    funext field
    rw [List.cons_append, editEach, run_get_bind, run_bind, editEach, run_get_bind]
    cases step field (field.indexAt k) value with
    | error fault => rfl
    | ok field' =>
      rw [ih, List.length_cons, Nat.add_comm rest.length, ← Nat.add_assoc]
      rfl

-- The induction is on the numbers that are still to be written, after those that have been.
theorem advances_writeEach {start field : Field α} {before : List α} (values : List α)
    (done : editEach Field.write 0 before start = .ok () field) :
    field.Advances (start.Writes (.writeAll (before ++ values))) False
      (ended (editEach Field.write before.length values field)) := by
  induction values generalizing before field with
  | nil => exact .refl id field
  | cons value rest ih =>
    rw [editEach, run_get_bind]
    cases stepped : field.write (field.indexAt before.length) value with
    | error fault => exact .refl id field
    | ok field' =>
      have further : editEach Field.write 0 (before ++ [value]) start = .ok () field' := by
        rw [editEach_append, bind_after done, Nat.zero_add, editEach, run_get_bind, stepped]
        rfl
      have later := ih further
      rw [List.append_assoc, List.length_append] at later
      obtain ⟨position, -, same⟩ := Except.bind_ok.mp stepped
      cases same
      exact (field.advances_setAt (.writeAll further) position).trans later

theorem advances_edit (field : Field α) (edit : FieldEdit α) :
    field.Advances (field.Writes edit) (edit = .enableGradient) (ended (Field.edit edit field)) := by
  have once : ∀ {step : Field α → Except FieldFault (Field α)},
      (∀ field', step field = .ok field' → field.Advances (field.Writes edit) False field') →
      field.Advances (field.Writes edit) False (ended (editOnce step field)) := by
    intro step advances
    unfold editOnce
    rw [run_get_bind]
    cases stepped : step field with
    | error fault => exact .refl id field
    | ok field' => exact advances field' stepped
  have still : edit ≠ .enableGradient → field.Advances (field.Writes edit) False (ended (Field.edit edit field)) →
      field.Advances (field.Writes edit) (edit = .enableGradient) (ended (Field.edit edit field)) :=
    fun other advances => advances.mono (fun _ => id) (by simp [other])
  have each : ∀ {x : EStateM FieldFault (Field α) Unit},
      field.Advances (field.Writes edit) False (ended (x field)) → field.Advances (field.Writes edit) False
        (ended ((do x; return FieldAnswer.edited : EStateM FieldFault (Field α) (FieldAnswer α)) field)) := by
    intro x advances
    rw [run_bind]
    cases ran : x field <;> rwa [ran] at advances
  cases edit with
  | write index value =>
    refine still nofun (once fun field' written => ?_)
    obtain ⟨position, -, same⟩ := Except.bind_ok.mp written
    cases same
    exact field.advances_setAt (.write written) position
  | addGrad index delta => exact still nofun (once fun _ added => Altered.advances (addGrad_altered added))
  | fill value => exact still nofun (field.advances_fill (.fill value))
  | fillGrad value => exact still nofun (once fun _ filled => Altered.advances (fillGrad_altered filled))
  | zeroGrad => exact still nofun field.zeroGrad_altered.advances
  | writeAll values =>
    have none_ : editEach Field.write 0 [] field = .ok () field := rfl
    exact still nofun (each (field.advances_writeEach values none_))
  | addGrads deltas =>
    exact still nofun (each (moves_editEach (fun _ _ _ _ => addGrad_altered) 0 deltas field).advances)
  | enableGradient => exact field.advances_enableGradient rfl

end Field

-- Every field advances, and there are no new ones. `enabled` tells by a field's name and group whether
-- gradients are enabled for it.
def FieldTable.Advances (written : String → α → Prop) (enabled : String → String → Prop)
    (before after : FieldTable α) : Prop :=
  ∀ name, Option.Rel (fun a b => Field.Advances (written name) (enabled name a.group) a b)
    (before.find? name) (after.find? name)

-- Every field stays, with its type, shape and group; fields may be added.
def FieldTable.Stays (before after : FieldTable α) : Prop :=
  ∀ name field, before.find? name = some field → ∃ field', after.find? name = some field' ∧
    field'.element = field.element ∧ field'.shape = field.shape ∧ field'.group = field.group

namespace FieldTable

variable {written written' : String → α → Prop} {enabled enabled' : String → String → Prop} {a b c : FieldTable α}

def Never (_name _group : String) : Prop := False

namespace Advances

theorem refl (table : FieldTable α) : table.Advances written Never table :=
  fun _ => answers_refl (.refl id) _

theorem trans (first : a.Advances written Never b) (second : b.Advances written enabled c) :
    a.Advances written enabled c :=
  fun name => answers_trans (first name) (second name) fun _ _ _ ab bc => ab.trans (ab.group ▸ bc)

theorem mono (advances : a.Advances written enabled b) (more : ∀ name v, written name v → written' name v)
    (same : ∀ name field, a.find? name = some field → (enabled name field.group ↔ enabled' name field.group)) :
    a.Advances written' enabled' b :=
  fun name => answers_mono (advances name) fun field _ found changed =>
    changed.mono (more name) (same name field found)

theorem still (advances : a.Advances written Never b) (more : ∀ name v, written name v → written' name v) :
    a.Advances written' Never b := advances.mono more fun _ _ _ => Iff.rfl

end Advances

theorem Advances.find (advances : a.Advances written enabled b) {name : String} {field : Field α}
    (found : a.find? name = some field) : ∃ field', b.find? name = some field' ∧
      field.Advances (written name) (enabled name field.group) field' := by
  obtain ⟨field', found', changed⟩ := answers_find (advances name) found
  exact ⟨field', found', changed⟩

theorem Advances.find_back (advances : a.Advances written enabled b) {name : String} {field' : Field α}
    (found : b.find? name = some field') : ∃ field, a.find? name = some field ∧
      field.Advances (written name) (enabled name field.group) field' := by
  obtain ⟨field, found', changed⟩ := answers_find_back (advances name) found
  exact ⟨field, found', changed⟩

theorem Advances.stays (advances : a.Advances written enabled b) : a.Stays b := fun name field found => by
  obtain ⟨field', found', changed⟩ := advances.find found
  exact ⟨field', found', changed.element, changed.shape, changed.group⟩

theorem Altered.advances {gradWrites : String → Prop} (altered : a.Altered (fun _ => False) gradWrites b) :
    a.Advances written Never b := fun name => by
  have here := altered name
  revert here
  generalize a.find? name = x, b.find? name = y
  intro here
  cases here with
  | none => exact .none
  | some changed => exact .some changed.advances

omit [Scalar α] in
theorem Altered.stays {writes gradWrites : String → Prop} (altered : a.Altered writes gradWrites b) : a.Stays b :=
  fun name field found => by
    obtain ⟨field', found', changed⟩ := altered.find found
    exact ⟨field', found', changed.element, changed.shape, changed.group⟩

omit [Scalar α] in
theorem Stays.refl (table : FieldTable α) : table.Stays table := fun _ field found => ⟨field, found, rfl, rfl, rfl⟩

omit [Scalar α] in
theorem Stays.trans (first : a.Stays b) (second : b.Stays c) : a.Stays c := fun name field found => by
  obtain ⟨field', found', element, shape, group⟩ := first name field found
  obtain ⟨field'', found'', element', shape', group'⟩ := second name field' found'
  exact ⟨field'', found'', element'.trans element, shape'.trans shape, group'.trans group⟩

theorem stays_declare {name : String} {element : ElementType} {shape : Shape} {group : String}
    (declared : a.declare name element shape group = .ok b) : a.Stays b := by
  obtain ⟨absent, rfl⟩ := declare_ok.mp declared
  intro key field found
  have other : key ≠ name := by
    rintro rfl
    rw [NameMap.contains_iff.mpr ⟨field, found⟩] at absent
    cases absent
  exact ⟨field, by rw [NameMap.find?_insert, if_neg other, found], rfl, rfl, rfl⟩

theorem advances_insert {table : FieldTable α} {name : String} {field field' : Field α}
    (found : table.find? name = some field)
    (advances : field.Advances (written name) (enabled name field.group) field')
    (others : ∀ key group, key ≠ name → ¬enabled key group) :
    table.Advances written enabled (table.insert name field') := fun key => by
  rw [NameMap.find?_insert]
  split
  · next same =>
    subst same
    rw [found]
    exact .some advances
  · next other =>
    cases table.find? key with
    | none => exact .none
    | some field => exact .some (.refl (others key _ other) field)

theorem advances_setAt {name : String} {value : α} (given : written name value) (table : FieldTable α)
    (position : Nat) : table.Advances written Never (table.setAt name position value) := fun key => by
  rw [find?_setAt]
  cases table.find? key with
  | none => simp
  | some field =>
    split
    · next same => exact .some (field.advances_setAt (same ▸ given) position)
    · exact .some (.refl id field)

theorem advances_addGradAt (table : FieldTable α) (name : String) (position : Nat) (delta : α) :
    table.Advances written Never (table.addGradAt name position delta) := by
  have altered : table.Altered (fun _ => False) (fun _ => True) (table.addGradAt name position delta) :=
    altered_addGradAt trivial table position delta
  exact altered.advances

theorem advances_enableGrads (written : String → α → Prop) (table : FieldTable α) (group : String) :
    table.Advances written (fun _ path => segments group <+: segments path) (table.enableGrads group) := by
  intro key
  rw [enableGrads, NameMap.find?_mapEntries]
  cases table.find? key with
  | none => exact .none
  | some field =>
    refine .some ?_
    change field.Advances _ _ (if groupCovers group field.group then field.enableGradient else field)
    split
    · next covers => exact field.advances_enableGradient (groupCovers_iff.mp covers)
    · next apart => exact .refl (fun below => apart (groupCovers_iff.mpr below)) field

theorem advances_zeroGrads (written : String → α → Prop) (table : FieldTable α) :
    table.Advances written Never table.zeroGrads := fun key => by
  rw [zeroGrads, NameMap.find?_mapEntries]
  cases table.find? key with
  | none => exact .none
  | some field => exact .some field.zeroGrad_altered.advances

def Writes (table : FieldTable α) (name : String) (edit : FieldEdit α) (key : String) (v : α) : Prop :=
  key = name ∧ ∃ field, table.find? name = some field ∧ field.Writes edit v

def Enables (name : String) (edit : FieldEdit α) (key _group : String) : Prop :=
  key = name ∧ edit = .enableGradient

theorem advances_edit (table : FieldTable α) (name : String) (edit : FieldEdit α) :
    table.Advances (table.Writes name edit) (Enables name edit) (ended (FieldTable.edit name edit table)) := by
  unfold FieldTable.edit
  rw [run_get_bind]
  cases found : table.field name with
  | error fault =>
    refine (Advances.refl table).mono (fun _ _ => id) fun key field there => ⟨False.elim, ?_⟩
    rintro ⟨rfl, -⟩
    rw [field_ok.mpr there] at found
    cases found
  | ok field =>
    have there := field_ok.mp found
    have inserted : ∀ field', field.Advances (field.Writes edit) (edit = .enableGradient) field' →
        table.Advances (table.Writes name edit) (Enables name edit) (table.insert name field') := by
      intro field' advances
      refine advances_insert there (advances.mono (fun v writes => ?_) ?_) fun key _ other both => other both.1
      · exact ⟨rfl, field, there, writes⟩
      · simp [Enables]
    have advances := field.advances_edit edit
    cases edited : Field.edit edit field with
    | ok answer field' =>
      rw [edited] at advances
      simp only [EStateM.run, edited]
      exact inserted field' advances
    | error fault field' =>
      rw [edited] at advances
      simp only [EStateM.run, edited]
      exact inserted field' advances

theorem edit_enableGradient {table : FieldTable α} {name : String} {field : Field α}
    (found : table.find? name = some field) : FieldTable.edit name .enableGradient table =
      .ok (.enabled field.enableGradient.element.isReal) (table.insert name field.enableGradient) := by
  rw [FieldTable.edit, run_get_bind, field_ok.mpr found]
  rfl

end FieldTable

end FieldKernel
