import FieldKernel.Domain
import Mathlib.Data.List.Forall2

-- The points of a box, in either order: each integer point within the bounds, once.
namespace FieldKernel.Domain

theorem visitLast_eq {m : Type → Type} [Monad m] (domain : Domain) (order : VisitOrder)
    (act : Point → m Unit) {left : Nat} (bound : left ≤ domain.size) :
    domain.visitLast order act left =
      ((List.range' (domain.size - left) left).map fun k =>
        domain.point (positionAt order domain.size k)).forM act := by
  induction left with
  | zero => rfl
  | succ left ih =>
    have next : domain.size - (left + 1) + 1 = domain.size - left := by omega
    rw [visitLast, ih (by omega), List.range'_succ, List.map_cons, next]
    rfl

theorem visit_eq {m : Type → Type} [Monad m] (domain : Domain) (order : VisitOrder)
    (act : Point → m Unit) : domain.visit order act = (domain.points order).forM act := by
  rw [visit, visitLast_eq domain order act (Nat.le_refl _), Nat.sub_self, points,
    List.range_eq_range']

theorem points_reverse (domain : Domain) :
    domain.points .reverse = (domain.points .forward).reverse := by
  simp only [points, ← List.map_reverse]
  apply List.ext_getElem
  · simp
  · intro k low high
    simp [positionAt]

theorem points_opposite (domain : Domain) {order order' : VisitOrder} (opposite : order' ≠ order) :
    domain.points order' = (domain.points order).reverse := by
  have back := points_reverse domain
  cases order <;> cases order'
  · exact absurd rfl opposite
  · exact back
  · rw [back, List.reverse_reverse]
  · exact absurd rfl opposite

theorem points_perm (domain : Domain) (order order' : VisitOrder) :
    (domain.points order).Perm (domain.points order') := by
  have back := points_reverse domain
  have turn := (domain.points .forward).reverse_perm
  cases order <;> cases order'
  · exact .refl _
  · exact back ▸ turn.symm
  · exact back ▸ turn
  · exact .refl _

theorem coordinates_inj (axes : List Axis) {a b : Nat} (left : a < (axes.map Axis.extent).foldr (· * ·) 1)
    (right : b < (axes.map Axis.extent).foldr (· * ·) 1)
    (same : coordinates axes a = coordinates axes b) : a = b := by
  induction axes generalizing a b with
  | nil => simp at left right; omega
  | cons axis before ih =>
    simp only [List.map_cons, List.foldr_cons] at left right
    have room : 0 < axis.extent := Nat.pos_of_mul_pos_right (Nat.zero_lt_of_lt left)
    rw [coordinates, coordinates, if_neg (by omega), if_neg (by omega)] at same
    obtain ⟨digit, rest⟩ := List.cons.inj same
    have low : a % axis.extent = b % axis.extent := by omega
    have high := ih (Nat.div_lt_of_lt_mul left) (Nat.div_lt_of_lt_mul right) rest
    rw [← Nat.div_add_mod a axis.extent, ← Nat.div_add_mod b axis.extent, low, high]

theorem foldr_mul_reverse (extents : List Nat) :
    extents.reverse.foldr (· * ·) 1 = extents.foldr (· * ·) 1 :=
  (List.reverse_perm extents).foldr_eq' (fun a _ b _ c => Nat.mul_left_comm b a c) 1

theorem size_reverse (axes : List Axis) :
    (axes.reverse.map Axis.extent).foldr (· * ·) 1 = (Domain.mk axes).size := by
  rw [List.map_reverse, foldr_mul_reverse]
  rfl

theorem point_inj (domain : Domain) {a b : Nat} (left : a < domain.size) (right : b < domain.size)
    (same : domain.point a = domain.point b) : a = b := by
  have size := size_reverse domain.axes
  exact coordinates_inj domain.axes.reverse (size ▸ left) (size ▸ right) (List.reverse_inj.mp same)

theorem nodup_points (domain : Domain) (order : VisitOrder) : (domain.points order).Nodup := by
  refine (points_perm domain .forward order).nodup_iff.mp ?_
  refine List.pairwise_map.mpr ((List.nodup_range (n := domain.size)).imp_of_mem ?_)
  intro a b inA inB other same
  exact other (point_inj domain (List.mem_range.mp inA) (List.mem_range.mp inB) same)

theorem length_coordinates (axes : List Axis) (flat : Nat) : (coordinates axes flat).length = axes.length := by
  induction axes generalizing flat with
  | nil => rfl
  | cons axis before ih =>
    rw [coordinates]
    split
    · simp
    · simp [ih]

theorem length_of_mem_points {domain : Domain} {order : VisitOrder} {point : Point}
    (member : point ∈ domain.points order) : point.length = domain.rank := by
  obtain ⟨k, -, rfl⟩ := List.mem_map.mp member
  simp [Domain.point, length_coordinates, rank]

@[simp] theorem length_points (domain : Domain) (order : VisitOrder) :
    (domain.points order).length = domain.size := by
  simp [points]

theorem getElem?_points {domain : Domain} {k : Nat} {point : Point} :
    (domain.points .forward)[k]? = some point ↔ k < domain.size ∧ domain.point k = point := by
  rw [points, List.getElem?_map, Option.map_eq_some_iff]
  simp [List.getElem?_eq_some_iff, positionAt]

def Contains (domain : Domain) (point : Point) : Prop :=
  List.Forall₂ (fun axis i => axis.lo ≤ i ∧ i < axis.hi) domain.axes point

theorem size_cons (axis : Axis) (rest : List Axis) :
    (Domain.mk (axis :: rest)).size = axis.extent * (Domain.mk rest).size := rfl

theorem coordinates_mod (axes : List Axis) (flat : Nat) :
    coordinates axes (flat % (axes.map Axis.extent).foldr (· * ·) 1) = coordinates axes flat := by
  induction axes generalizing flat with
  | nil => rfl
  | cons axis before ih =>
    rw [coordinates, coordinates, List.map_cons, List.foldr_cons, Nat.mod_mul_right_mod,
      Nat.mod_mul_right_div_self, ih]

theorem coordinates_append {inner : List Axis} (room : 0 < (inner.map Axis.extent).foldr (· * ·) 1)
    (outer : List Axis) (flat : Nat) :
    coordinates (inner ++ outer) flat = coordinates inner flat ++
      coordinates outer (flat / (inner.map Axis.extent).foldr (· * ·) 1) := by
  induction inner generalizing flat with
  | nil => simp [coordinates]
  | cons axis before ih =>
    rw [List.map_cons, List.foldr_cons] at room ⊢
    have extent : axis.extent ≠ 0 := Nat.ne_of_gt (Nat.pos_of_mul_pos_right room)
    rw [List.cons_append, coordinates, coordinates, if_neg extent, if_neg extent,
      ih (Nat.pos_of_mul_pos_left room), List.cons_append, Nat.div_div_eq_div_mul]

theorem row_lt {axis : Axis} {rest : List Axis} {flat : Nat}
    (within : flat < (Domain.mk (axis :: rest)).size) :
    0 < (Domain.mk rest).size ∧ flat / (Domain.mk rest).size < axis.extent := by
  rw [size_cons] at within
  have room := Nat.pos_of_mul_pos_left (Nat.zero_lt_of_lt within)
  exact ⟨room, (Nat.div_lt_iff_lt_mul room).mpr within⟩

theorem point_cons {axis : Axis} {rest : List Axis} {flat : Nat}
    (within : flat < (Domain.mk (axis :: rest)).size) :
    (Domain.mk (axis :: rest)).point flat =
      (axis.lo + (flat / (Domain.mk rest).size : Nat)) ::
        (Domain.mk rest).point (flat % (Domain.mk rest).size) := by
  obtain ⟨room, row⟩ := row_lt within
  have extent : axis.extent ≠ 0 := Nat.ne_of_gt (Nat.zero_lt_of_lt row)
  have again := coordinates_mod rest.reverse flat
  rw [size_reverse] at again
  rw [point, point, List.reverse_cons, coordinates_append (by rwa [size_reverse]), size_reverse,
    List.reverse_append, again, coordinates, if_neg extent, Nat.mod_eq_of_lt row]
  rfl

theorem contains_point {domain : Domain} {flat : Nat} (within : flat < domain.size) :
    domain.Contains (domain.point flat) := by
  obtain ⟨axes⟩ := domain
  induction axes generalizing flat with
  | nil => exact .nil
  | cons axis rest ih =>
    obtain ⟨room, row⟩ := row_lt within
    rw [point_cons within]
    refine .cons ?_ (ih (Nat.mod_lt _ room))
    generalize flat / (Domain.mk rest).size = digit at row
    rw [Axis.extent] at row
    omega

theorem exists_point {domain : Domain} {point : Point} (inside : domain.Contains point) :
    ∃ flat < domain.size, domain.point flat = point := by
  obtain ⟨axes⟩ := domain
  induction axes generalizing point with
  | nil =>
    cases inside
    exact ⟨0, Nat.zero_lt_one, rfl⟩
  | cons axis rest ih =>
    obtain ⟨i, others, bounds, inner, rfl⟩ := List.forall₂_cons_left_iff.mp inside
    obtain ⟨flat, within, rfl⟩ := ih inner
    have room : 0 < (Domain.mk rest).size := Nat.zero_lt_of_lt within
    have row : (i - axis.lo).toNat < axis.extent := by rw [Axis.extent]; omega
    have below : (Domain.mk rest).size * (i - axis.lo).toNat + flat < (Domain.mk (axis :: rest)).size := by
      rw [size_cons, Nat.mul_comm axis.extent]
      calc (Domain.mk rest).size * (i - axis.lo).toNat + flat
        _ < (Domain.mk rest).size * ((i - axis.lo).toNat + 1) := by rw [Nat.mul_succ]; omega
        _ ≤ (Domain.mk rest).size * axis.extent := Nat.mul_le_mul_left _ row
    refine ⟨_, below, ?_⟩
    rw [point_cons below, Nat.mul_add_div room, Nat.div_eq_of_lt within, Nat.mul_add_mod,
      Nat.mod_eq_of_lt within]
    have digit : axis.lo + ((i - axis.lo).toNat + 0 : Nat) = i := by omega
    rw [digit]

theorem mem_points {domain : Domain} {order : VisitOrder} {point : Point} :
    point ∈ domain.points order ↔ domain.Contains point := by
  rw [(points_perm domain order .forward).mem_iff]
  constructor
  · intro member
    obtain ⟨flat, within, rfl⟩ := List.mem_map.mp member
    exact contains_point (List.mem_range.mp within)
  · intro inside
    obtain ⟨flat, within, rfl⟩ := exists_point inside
    exact List.mem_map.mpr ⟨flat, List.mem_range.mpr within, rfl⟩

theorem point_lt {domain : Domain} {a b : Nat} (less : a < b) (within : b < domain.size) :
    domain.point a < domain.point b := by
  obtain ⟨axes⟩ := domain
  induction axes generalizing a b with
  | nil =>
    have one : b < 1 := within
    omega
  | cons axis rest ih =>
    obtain ⟨room, -⟩ := row_lt within
    rw [point_cons within, point_cons (Nat.lt_trans less within), List.cons_lt_cons_iff]
    have rows := Nat.div_le_div_right (c := (Domain.mk rest).size) (Nat.le_of_lt less)
    rcases Nat.lt_or_eq_of_le rows with row | row
    · exact .inl (by omega)
    · have inner : a % (Domain.mk rest).size < b % (Domain.mk rest).size := by
        have first := Nat.div_add_mod a (Domain.mk rest).size
        have second := Nat.div_add_mod b (Domain.mk rest).size
        rw [row] at first
        omega
      exact .inr ⟨by rw [row], ih inner (Nat.mod_lt _ room)⟩

theorem points_sorted (domain : Domain) : (domain.points .forward).Pairwise (· < ·) :=
  List.pairwise_map.mpr <| List.pairwise_lt_range.imp_of_mem fun _ inB less =>
    point_lt less (List.mem_range.mp inB)

end FieldKernel.Domain
