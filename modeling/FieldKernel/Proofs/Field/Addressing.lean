import FieldKernel.Proofs.Domain
import FieldKernel.Proofs.Field.Table

-- An element stands where the enumeration of the box of its shape has its index: both count row by row.
namespace FieldKernel

variable {α : Type}

namespace Shape

theorem extent_upto (extent : Nat) : (Axis.mk 0 extent).extent = extent := by simp [Axis.extent]

@[simp] theorem size_ofExtents (shape : Shape) : (Domain.ofExtents shape).size = shape.size := by
  induction shape with
  | nil => rfl
  | cons extent shape ih =>
    calc (Domain.ofExtents (extent :: shape)).size
      _ = (Axis.mk 0 extent).extent * (Domain.ofExtents shape).size := rfl
      _ = extent * size shape := by rw [extent_upto, ih]

theorem row_lt {extent flat : Nat} {shape : Shape} (within : flat < size (extent :: shape)) :
    0 < shape.size ∧ flat / shape.size < extent := by
  rw [← size_ofExtents] at within
  have bounds := Domain.row_lt within
  change 0 < (Domain.ofExtents shape).size ∧
    flat / (Domain.ofExtents shape).size < (Axis.mk 0 extent).extent at bounds
  rwa [size_ofExtents, extent_upto] at bounds

theorem point_cons {extent flat : Nat} {shape : Shape} (within : flat < size (extent :: shape)) :
    (Domain.ofExtents (extent :: shape)).point flat =
      ((flat / shape.size : Nat) : Int) :: (Domain.ofExtents shape).point (flat % shape.size) := by
  rw [← size_ofExtents] at within
  have split := Domain.point_cons within
  change (Domain.ofExtents (extent :: shape)).point flat =
    (0 + ((flat / (Domain.ofExtents shape).size : Nat) : Int)) ::
      (Domain.ofExtents shape).point (flat % (Domain.ofExtents shape).size) at split
  rwa [size_ofExtents, Int.zero_add] at split

theorem offsetFrom_point {shape : Shape} {base axis flat : Nat} (within : flat < shape.size) :
    shape.offsetFrom base axis ((Domain.ofExtents shape).point flat) =
      .ok (base * shape.size + flat) := by
  induction shape generalizing base axis flat with
  | nil =>
    have zero : flat = 0 := Nat.lt_one_iff.mp within
    simp [zero, offsetFrom, size]
  | cons extent shape ih =>
    obtain ⟨room, row⟩ := row_lt within
    have inside : ¬ (((flat / size shape : Nat) : Int) < 0 ∨
        (extent : Int) ≤ ((flat / size shape : Nat) : Int)) := by
      generalize flat / size shape = digit at row
      omega
    rw [point_cons within, offsetFrom, if_neg inside, ih (Nat.mod_lt _ room), Int.toNat_natCast]
    congr 1
    calc (base * extent + flat / size shape) * size shape + flat % size shape
      _ = base * (extent * size shape) + (size shape * (flat / size shape) + flat % size shape) := by
        rw [Nat.add_mul, Nat.mul_assoc, Nat.mul_comm (flat / size shape), Nat.add_assoc]
      _ = base * (extent * size shape) + flat := by rw [Nat.div_add_mod]

theorem offset_point {shape : Shape} {flat : Nat} (within : flat < shape.size) :
    shape.offset ((Domain.ofExtents shape).point flat) = .ok flat := by
  have rank : ((Domain.ofExtents shape).point flat).length = shape.length := by
    simp [Domain.point, Domain.length_coordinates, Domain.ofExtents]
  rw [offset, if_pos rank, offsetFrom_point within, Nat.zero_mul, Nat.zero_add]

theorem contains_of_offsetFrom {shape : Shape} {index : List Int} {base axis position : Nat}
    (rank : index.length = shape.length) (found : shape.offsetFrom base axis index = .ok position) :
    (Domain.ofExtents shape).Contains index := by
  induction shape generalizing index base axis with
  | nil =>
    rw [List.length_eq_zero_iff.mp rank]
    exact .nil
  | cons extent shape ih =>
    cases index with
    | nil => cases rank
    | cons i index =>
      rw [offsetFrom] at found
      split at found
      · cases found
      · next inside =>
        have bounds : 0 ≤ i ∧ i < (extent : Int) := by omega
        exact .cons bounds (ih (Nat.succ.inj rank) found)

-- An index has a position exactly if the box has it as its point there.
theorem offset_iff {shape : Shape} {index : List Int} {position : Nat} :
    shape.offset index = .ok position ↔
      position < shape.size ∧ (Domain.ofExtents shape).point position = index := by
  constructor
  · intro found
    have inside : (Domain.ofExtents shape).Contains index := by
      rw [offset] at found
      split at found
      · next rank => exact contains_of_offsetFrom rank found
      · cases found
    obtain ⟨flat, within, rfl⟩ := Domain.exists_point inside
    rw [size_ofExtents] at within
    cases (offset_point within).symm.trans found
    exact ⟨within, rfl⟩
  · rintro ⟨within, rfl⟩
    exact offset_point within

end Shape

-- A box lists the integer points within its bounds, once each and in lexicographic order, or from the
-- last to the first. A field has a position for the indices of its box alone, the one that the
-- enumeration of the box has them at: `offset` and `point` undo each other. Counting positions in words
-- loses nothing where they all fit.
theorem points_and_offsets (domain : Domain) (field : Field α) :
    ((∀ point, point ∈ domain.points .forward ↔ domain.Contains point) ∧
      (domain.points .forward).Nodup ∧ (domain.points .forward).Pairwise (· < ·) ∧
      (domain.points .forward).length = domain.size ∧
      domain.points .reverse = (domain.points .forward).reverse) ∧
    (∀ index, (∃ position, field.offset index = .ok position) ↔
      (Domain.ofExtents field.shape).Contains index) ∧
    (∀ index position, field.offset index = .ok position ↔
      ((Domain.ofExtents field.shape).points .forward)[position]? = some index) ∧
    (∀ position < (Domain.ofExtents field.shape).size,
      field.offset ((Domain.ofExtents field.shape).point position) = .ok position) ∧
    (∀ index position, field.offset index = .ok position →
      position < (Domain.ofExtents field.shape).size ∧
        (Domain.ofExtents field.shape).point position = index) ∧
    (field.shape.size ≤ 18446744073709551616 → ∀ index, field.position index = field.offset index) := by
  simp only [Field.offset_ok, Shape.size_ofExtents]
  refine ⟨⟨fun point => Domain.mem_points, domain.nodup_points _, domain.points_sorted,
    domain.length_points _, domain.points_reverse⟩, fun index => ?_, fun index position => ?_,
    fun position => Shape.offset_point, fun index position => Shape.offset_iff.mp, Field.position_eq⟩
  · constructor
    · rintro ⟨position, found⟩
      obtain ⟨within, rfl⟩ := Shape.offset_iff.mp found
      exact Domain.contains_point (by rwa [Shape.size_ofExtents])
    · intro inside
      obtain ⟨flat, within, rfl⟩ := Domain.exists_point inside
      exact ⟨flat, Shape.offset_point (by rwa [Shape.size_ofExtents] at within)⟩
  · rw [Shape.offset_iff, Domain.getElem?_points, Shape.size_ofExtents]

end FieldKernel
