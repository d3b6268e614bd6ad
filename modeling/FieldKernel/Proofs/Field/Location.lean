import Mathlib.Algebra.BigOperators.Group.Finset.Basic
import FieldKernel.Proofs.Field.Sized
import FieldKernel.Proofs.Scalar.Exact

-- Locations: the stored elements of real fields. Adding to a gradient changes the gradient of one location.
namespace FieldKernel

variable {α : Type} [Scalar α]

namespace FieldTable

variable {table table' : FieldTable α}

def isReal (table : FieldTable α) (name : String) : Bool :=
  (table.find? name).any fun field => field.element.isReal

def realLocations (table : FieldTable α) : Finset (String × Nat) :=
  (table.entries.flatMap fun entry =>
    if entry.2.element.isReal then (List.range entry.2.shape.stored).map (entry.1, ·) else []).toFinset

omit [Scalar α] in
theorem mem_realLocations {location : String × Nat} : location ∈ table.realLocations ↔
    ∃ field, table.find? location.1 = some field ∧ field.element.isReal = true ∧
      location.2 < field.shape.stored := by
  obtain ⟨name, position⟩ := location
  simp only [realLocations, List.mem_toFinset, List.mem_flatMap]
  constructor
  · rintro ⟨⟨key, field⟩, listed, member⟩
    split at member
    · next real =>
      simp only [List.mem_map, List.mem_range, Prod.mk.injEq] at member
      obtain ⟨p, inside, rfl, rfl⟩ := member
      exact ⟨field, NameMap.mem_entries_iff.mp listed, real, inside⟩
    · cases member
  · rintro ⟨field, found, real, inside⟩
    refine ⟨(name, field), NameMap.mem_entries_iff.mpr found, ?_⟩
    rw [if_pos real]
    exact List.mem_map.mpr ⟨position, List.mem_range.mpr inside, rfl⟩

def Graded (table : FieldTable α) : Prop :=
  ∀ name field, table.find? name = some field → field.element.isReal = true → field.hasGrad = true

omit [Scalar α] in
theorem graded_of_entries (graded : ∀ entry ∈ table.entries, entry.2.element.isReal = true →
    entry.2.hasGrad = true) : table.Graded := fun name field found =>
  graded (name, field) (NameMap.mem_entries_iff.mpr found)

omit [Scalar α] in
theorem Graded.altered {writes gradWrites : String → Prop} (graded : table.Graded)
    (altered : table.Altered writes gradWrites table') : table'.Graded := by
  intro name field found real
  obtain ⟨before, stored, changed⟩ := altered.find_back found
  rw [changed.hasGrad]
  exact graded name before stored (changed.element ▸ real)

theorem gradAt_addGradAt (sized : table.Sized) (graded : table.Graded) {name : String} {position : Nat}
    (located : (name, position) ∈ table.realLocations) (delta : α) (key : String) (p : Nat) :
    (table.addGradAt name position delta).gradAt key p =
      if (key, p) = (name, position) then table.gradAt name position + delta else table.gradAt key p := by
  obtain ⟨field, found, real, inside⟩ := mem_realLocations.mp located
  obtain ⟨grad, stored⟩ := Option.isSome_iff_exists.mp (graded name field found real)
  have room : position < grad.size := (sized name field found).grad grad stored ▸ inside
  rw [gradAt, find?_addGradAt]
  by_cases same : key = name
  · subst same
    rw [if_pos rfl, found, Option.map_some]
    simp only [gradAt, found, Field.gradAt, Field.addGradAt, stored, Option.map_some, Option.getD_some]
    by_cases here : p = position
    · subst here
      simp [Array.getD_eq_getD_getElem?, Array.getElem_modify_self, room]
    · simp [Array.getD_eq_getD_getElem?, Array.getElem?_modify, here, Ne.symm here]
  · rw [if_neg same, if_neg fun equal => same (Prod.mk.inj equal).1]
    rfl

omit [Scalar α] in
theorem realLocations_altered {writes gradWrites : String → Prop}
    (altered : table.Altered writes gradWrites table') : table'.realLocations = table.realLocations := by
  ext location
  rw [mem_realLocations, mem_realLocations]
  constructor
  · rintro ⟨field, found, real, inside⟩
    obtain ⟨before, stored, changed⟩ := altered.find_back found
    exact ⟨before, stored, changed.element ▸ real, changed.shape ▸ inside⟩
  · rintro ⟨field, found, real, inside⟩
    obtain ⟨after, stored, changed⟩ := altered.find found
    exact ⟨after, stored, changed.element.symm ▸ real, changed.shape.symm ▸ inside⟩

end FieldTable

end FieldKernel
