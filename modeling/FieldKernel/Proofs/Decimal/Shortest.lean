import FieldKernel.Decimal.Digits
import FieldKernel.Proofs.Scalar.Exact
import Mathlib.Algebra.Order.Field.Power
import Mathlib.Data.Nat.Cast.Order.Field
import Mathlib.Tactic.FieldSimp
import Mathlib.Tactic.Linarith
import Mathlib.Tactic.NormNum
import Mathlib.Tactic.Positivity
import Mathlib.Tactic.Ring

-- The fewest digits of a binary value stand for a number that is read as the value; seventeen are enough.
namespace FieldKernel

theorem Decimal.exact_eq (d : Decimal) : (d.exact : ℚ) = d.digits * 10 ^ d.exponent := by
  rw [exact]
  split
  · next natural =>
    rw [← zpow_natCast, Int.toNat_of_nonneg natural]
  · next negative =>
    rw [← zpow_natCast, Int.toNat_of_nonneg (by omega), zpow_neg, div_inv_eq_mul]

namespace Digits

namespace Ratio

def value (x : Ratio) : ℚ := x.num / x.den

theorem value_ofNat (n : Nat) : (ofNat n).value = n := by simp [value, ofNat]

theorem value_mul (a b : Ratio) : (a.mul b).value = a.value * b.value := by
  simp [value, mul, mul_div_mul_comm]

theorem den_mul {a b : Ratio} (left : 0 < a.den) (right : 0 < b.den) : 0 < (a.mul b).den :=
  Nat.mul_pos left right

theorem value_power (base : Nat) (exponent : Int) : (power base exponent).value = (base : ℚ) ^ exponent := by
  rw [power]
  split
  · next natural =>
    obtain ⟨n, rfl⟩ := Int.eq_ofNat_of_zero_le natural
    simp [value]
  · next negative =>
    obtain ⟨n, same⟩ : ∃ n : Nat, exponent = -n := ⟨(-exponent).toNat, by omega⟩
    rw [value, same, zpow_neg, zpow_natCast]
    simp

theorem den_power {base : Nat} (positive : 0 < base) (exponent : Int) : 0 < (power base exponent).den := by
  rw [power]
  split
  · exact Nat.one_pos
  · exact Nat.pow_pos positive

theorem le_iff {a b : Ratio} (left : 0 < a.den) (right : 0 < b.den) :
    a.le b = true ↔ a.value ≤ b.value := by
  have left' : (0 : ℚ) < a.den := Nat.cast_pos.mpr left
  have right' : (0 : ℚ) < b.den := Nat.cast_pos.mpr right
  rw [value, value, div_le_div_iff₀ left' right', le, decide_eq_true_iff]
  exact_mod_cast Iff.rfl

theorem lt_iff {a b : Ratio} (left : 0 < a.den) (right : 0 < b.den) :
    a.lt b = true ↔ a.value < b.value := by
  have left' : (0 : ℚ) < a.den := Nat.cast_pos.mpr left
  have right' : (0 : ℚ) < b.den := Nat.cast_pos.mpr right
  rw [value, value, div_lt_div_iff₀ left' right', lt, decide_eq_true_iff]
  exact_mod_cast Iff.rfl

end Ratio

theorem lt_digitCount (n : Nat) : n < 10 ^ digitCount n :=
  (Nat.length_toDigits_le_iff (by decide) Nat.length_toDigits_pos).mp (Nat.le_refl _)

theorem digitCount_le {n : Nat} (positive : 0 < n) : 10 ^ digitCount n ≤ 10 * n := by
  have least : ∀ k, digitCount n = k + 1 → 10 ^ k ≤ n := by
    intro k count
    cases k with
    | zero => exact positive
    | succ k =>
      have more : ¬ digitCount n ≤ k + 1 := by omega
      have iff := Nat.length_toDigits_le_iff (b := 10) (n := n) (by decide) (Nat.succ_pos k)
      exact Nat.le_of_not_lt fun less => more (iff.mpr less)
  obtain ⟨k, count⟩ : ∃ k, digitCount n = k + 1 :=
    Nat.exists_eq_succ_of_ne_zero (Nat.ne_of_gt Nat.length_toDigits_pos)
  rw [count, Nat.pow_succ, Nat.mul_comm]
  exact Nat.mul_le_mul_left 10 (least k count)

theorem leadingExponent_le {x : Ratio} (positive : 0 < x.value) :
    (10 : ℚ) ^ leadingExponent x ≤ x.value := by
  have num : 0 < x.num := Nat.pos_of_ne_zero fun zero => by simp [Ratio.value, zero] at positive
  have den : 0 < x.den := Nat.pos_of_ne_zero fun zero => by simp [Ratio.value, zero] at positive
  rw [leadingExponent]
  split
  · next fits =>
    have below := (Ratio.le_iff (Ratio.den_power (by decide) _) den).mp fits
    rwa [Ratio.value_power] at below
  · have upper : (x.den : ℚ) < 10 ^ digitCount x.den := by exact_mod_cast lt_digitCount x.den
    have lower : (10 : ℚ) ^ digitCount x.num ≤ 10 * x.num := by exact_mod_cast digitCount_le num
    rw [zpow_sub₀ (by norm_num), zpow_sub₀ (by norm_num), zpow_natCast, zpow_natCast, zpow_one, Ratio.value,
      div_div, div_le_div_iff₀ (by positivity) (Nat.cast_pos.mpr den)]
    calc (10 : ℚ) ^ digitCount x.num * x.den
      _ ≤ 10 * x.num * x.den := by gcongr
      _ ≤ 10 * x.num * 10 ^ digitCount x.den := by gcongr
      _ = x.num * (10 ^ digitCount x.den * 10) := by ring

def Cell.Covers (c : Cell) (x : ℚ) : Prop :=
  if c.closed then c.low * c.unit.value ≤ x ∧ x ≤ c.high * c.unit.value
  else c.low * c.unit.value < x ∧ x < c.high * c.unit.value

namespace Cell

variable {c : Cell} {x : ℚ}

theorem Covers.bounds (covers : c.Covers x) : c.low * c.unit.value ≤ x ∧ x ≤ c.high * c.unit.value := by
  rw [Covers] at covers
  split at covers
  · exact covers
  · exact ⟨covers.1.le, covers.2.le⟩

theorem Covers.inside (covers : c.Covers x) (unclosed : c.closed = false) :
    c.low * c.unit.value < x ∧ x < c.high * c.unit.value := by
  rwa [Covers, unclosed] at covers

theorem covers_of_inside (low : c.low * c.unit.value < x) (high : x < c.high * c.unit.value) : c.Covers x := by
  rw [Covers]
  split
  · exact ⟨low.le, high.le⟩
  · exact ⟨low, high⟩

theorem contains_iff (unit : 0 < c.unit.den) {r : Ratio} (den : 0 < r.den) :
    c.contains r = true ↔ c.Covers r.value := by
  have bound : ∀ n, 0 < ((Ratio.ofNat n).mul c.unit).den := fun n => Ratio.den_mul Nat.one_pos unit
  rw [contains, Covers]
  split <;>
    rw [Bool.and_eq_true] <;>
    simp only [Ratio.le_iff, Ratio.lt_iff, bound, den, Ratio.value_mul, Ratio.value_ofNat]

def value (c : Cell) : ℚ := c.mid * c.unit.value

def lower (c : Cell) (place : Int) : Nat :=
  let steps := ((Ratio.ofNat c.mid).mul c.unit).mul (power 10 (-place))
  steps.num / steps.den

theorem value_between (unit : 0 < c.unit.den) (place : Int) :
    (c.lower place : ℚ) * 10 ^ place ≤ c.value ∧ c.value < (c.lower place + 1 : Nat) * 10 ^ place := by
  have grid : (0 : ℚ) < 10 ^ place := by positivity
  let steps := ((Ratio.ofNat c.mid).mul c.unit).mul (power 10 (-place))
  have den : 0 < steps.den := Ratio.den_mul (Ratio.den_mul Nat.one_pos unit) (Ratio.den_power (by decide) _)
  have whole : c.value = steps.value * 10 ^ place := by
    rw [Ratio.value_mul, Ratio.value_mul, Ratio.value_ofNat, Ratio.value_power, value, mul_assoc]
    simp [zpow_neg, grid.ne']
  have low : (c.lower place : ℚ) ≤ steps.value := Nat.cast_div_le
  have high : steps.value < (c.lower place + 1 : Nat) := by
    rw [Ratio.value, div_lt_iff₀ (Nat.cast_pos.mpr den), mul_comm]
    exact_mod_cast Nat.lt_mul_div_succ steps.num den
  rw [whole]
  exact ⟨by gcongr, by gcongr⟩

end Cell

section Grids

variable {c : Cell} (unit : 0 < c.unit.den)
include unit

theorem contains_point (place : Int) (n : Nat) :
    c.contains ((Ratio.ofNat n).mul (power 10 place)) = true ↔ c.Covers (n * 10 ^ place) := by
  rw [Cell.contains_iff unit (Ratio.den_mul Nat.one_pos (Ratio.den_power (by decide) _)), Ratio.value_mul,
    Ratio.value_ofNat, Ratio.value_power]
  rfl

omit unit in
theorem onGrid_eq (place : Int) : ∃ nearer : Bool, onGrid c place =
    let below := c.contains ((Ratio.ofNat (c.lower place)).mul (power 10 place))
    let above := c.contains ((Ratio.ofNat (c.lower place + 1)).mul (power 10 place))
    if below && (nearer || !above) then some (c.lower place)
    else if above then some (c.lower place + 1) else none := ⟨_, rfl⟩

theorem onGrid_cases (place : Int) :
    (∃ n, onGrid c place = some n ∧ c.Covers (n * 10 ^ place)) ∨
      onGrid c place = none ∧ ¬c.Covers (c.lower place * 10 ^ place) ∧
        ¬c.Covers ((c.lower place + 1 : Nat) * 10 ^ place) := by
  obtain ⟨nearer, found⟩ := onGrid_eq (c := c) place
  have below := contains_point unit place (c.lower place)
  have above := contains_point unit place (c.lower place + 1)
  rw [found]
  dsimp only
  cases low : c.contains ((Ratio.ofNat (c.lower place)).mul (power 10 place)) <;>
    cases high : c.contains ((Ratio.ofNat (c.lower place + 1)).mul (power 10 place)) <;>
    rw [low] at below <;> rw [high] at above
  · exact .inr ⟨rfl, by simpa using below, by simpa using above⟩
  · exact .inl ⟨_, rfl, above.mp rfl⟩
  · exact .inl ⟨_, by simp, below.mp rfl⟩
  · cases nearer
    · exact .inl ⟨_, rfl, above.mp rfl⟩
    · exact .inl ⟨_, rfl, below.mp rfl⟩

theorem onGrid_finds {place : Int} (low : c.low * c.unit.value < c.value)
    (high : c.value < c.high * c.unit.value)
    (fine : (10 : ℚ) ^ place < (c.high - c.low) * c.unit.value) :
    ∃ n, onGrid c place = some n := by
  rcases onGrid_cases unit place with ⟨n, found, -⟩ | ⟨-, below, above⟩
  · exact ⟨n, found⟩
  · exfalso
    obtain ⟨down, up⟩ := c.value_between unit place
    have beneath : (c.lower place : ℚ) * 10 ^ place ≤ c.low * c.unit.value := by
      by_contra inside
      exact below (Cell.covers_of_inside (not_le.mp inside) (down.trans_lt high))
    have beyond : c.high * c.unit.value ≤ (c.lower place + 1 : Nat) * (10 : ℚ) ^ place := by
      by_contra inside
      exact above (Cell.covers_of_inside (low.trans up) (not_le.mp inside))
    push_cast at beyond
    linarith

theorem searchGrids_covers {leading : Int} {fuel : Nat} {tried : Int}
    (finds : ∃ k < fuel, ∃ n, onGrid c (leading - (tried + k)) = some n) :
    c.Covers (searchGrids c leading fuel tried).exact := by
  induction fuel generalizing tried with
  | zero =>
    obtain ⟨k, none, -⟩ := finds
    exact absurd none (Nat.not_lt_zero k)
  | succ fuel ih =>
    rw [searchGrids]
    rcases onGrid_cases unit (leading - tried) with ⟨n, found, covers⟩ | ⟨missed, -, -⟩
    · rw [found, Decimal.exact_eq]
      exact covers
    · rw [missed]
      refine ih ?_
      obtain ⟨k, less, n, found⟩ := finds
      cases k with
      | zero =>
        rw [Int.natCast_zero, Int.add_zero, missed] at found
        cases found
      | succ k =>
        refine ⟨k, Nat.lt_of_succ_lt_succ less, n, ?_⟩
        rwa [Int.natCast_succ, Int.add_comm (k : Int), ← Int.add_assoc] at found

end Grids

theorem dropZeros_exact (fuel : Nat) (d : Decimal) : ((dropZeros fuel d).exact : ℚ) = d.exact := by
  induction fuel generalizing d with
  | zero => rfl
  | succ fuel ih =>
    rw [dropZeros]
    split
    · next zero =>
      obtain ⟨digits, exponent⟩ := d
      obtain ⟨n, rfl⟩ : 10 ∣ digits := Nat.dvd_of_mod_eq_zero zero.1
      rw [ih, Decimal.exact_eq, Decimal.exact_eq, Nat.mul_div_cancel_left n (by decide), zpow_add₀ (by norm_num)]
      push_cast
      ring
    · rfl

-- A mantissa and an exponent as doubles have them: the hidden bit is set except for the least exponent.
structure Canonical (m : Nat) (e : Int) : Prop where
  mantissa : m < 2 * Binary64.hiddenBit
  least : Binary64.leastExponent ≤ e
  normal : Binary64.leastExponent < e → Binary64.hiddenBit ≤ m

theorem unit_value (m : Nat) (e : Int) : (cell m e).unit.value = 2 ^ (e - 2) := by
  simp [cell, Ratio.value_power]

theorem unit_pos (m : Nat) (e : Int) : 0 < (cell m e).unit.value := by
  rw [unit_value]
  positivity

theorem unit_den (m : Nat) (e : Int) : 0 < (cell m e).unit.den := Ratio.den_power (by decide) _

theorem covers_zero (e : Int) : (cell 0 e).Covers 0 := by
  have unit := unit_pos 0 e
  have closed : (cell 0 e).closed = true := rfl
  have low : (cell 0 e).low = 0 := by simp [cell, Binary64.hiddenBit]
  rw [Cell.Covers, if_pos closed, low]
  exact ⟨by simp, by positivity⟩

-- A cell is around its value, and wider than a step of a grid of seventeen digits.
theorem cell_width {m : Nat} {e : Int} (canonical : Canonical m e) (positive : 0 < m) :
    (cell m e).low < (cell m e).mid ∧ (cell m e).mid < (cell m e).high ∧
      (cell m e).mid + 10 ^ 16 * (cell m e).low < 10 ^ 16 * (cell m e).high := by
  have bound := canonical.mantissa
  have hidden : Binary64.hiddenBit = 4503599627370496 := rfl
  dsimp only [cell]
  split
  · next narrow => omega
  · omega

theorem shortest_covers {m : Nat} {e : Int} (canonical : Canonical m e) (positive : 0 < m) :
    (cell m e).Covers (shortest m e).exact := by
  obtain ⟨low, high, width⟩ := cell_width canonical positive
  have unit := unit_pos m e
  have den := unit_den m e
  have above : (cell m e).low * (cell m e).unit.value < (cell m e).value := by
    rw [Cell.value]
    gcongr
  have below : (cell m e).value < (cell m e).high * (cell m e).unit.value := by
    rw [Cell.value]
    gcongr
  have whole : ((Ratio.ofNat (cell m e).mid).mul (cell m e).unit).value = (cell m e).value := by
    rw [Ratio.value_mul, Ratio.value_ofNat, Cell.value]
  have leading := leadingExponent_le (x := (Ratio.ofNat (cell m e).mid).mul (cell m e).unit)
  rw [shortest, dropZeros_exact]
  generalize leadingExponent ((Ratio.ofNat (cell m e).mid).mul (cell m e).unit) = top at leading
  rw [whole] at leading
  refine searchGrids_covers den ⟨16, by decide, onGrid_finds den above below ?_⟩
  have value : 0 < (cell m e).value := lt_of_le_of_lt (by positivity) above
  have wide : ((cell m e).mid : ℚ) + 10 ^ 16 * (cell m e).low < 10 ^ 16 * (cell m e).high := by
    exact_mod_cast width
  calc (10 : ℚ) ^ (top - (0 + (16 : Nat)))
    _ = 10 ^ top / 10 ^ 16 := by rw [Int.zero_add, zpow_sub₀ (by norm_num), zpow_natCast]
    _ ≤ (cell m e).mid * (cell m e).unit.value / 10 ^ 16 := by
      gcongr
      exact leading value
    _ = (cell m e).mid / 10 ^ 16 * (cell m e).unit.value := by ring
    _ < ((cell m e).high - (cell m e).low) * (cell m e).unit.value := by
      gcongr
      linarith

theorem closed_iff {m : Nat} {e : Int} : (cell m e).closed = false ↔ m % 2 = 1 := by
  simp [cell]

theorem unit_double {m m' : Nat} {e e' : Int} (less : e < e') :
    2 * (cell m e).unit.value ≤ (cell m' e').unit.value := by
  have next : (2 : ℚ) * 2 ^ (e - 2) = 2 ^ (e - 1) := by
    rw [← zpow_one_add₀ (by norm_num)]
    congr 1
    omega
  rw [unit_value, unit_value, next]
  exact zpow_le_zpow_right₀ (by norm_num) (by omega)

theorem cells_meet {m m' : Nat} {e e' : Int} (one : Canonical m e) (other : Canonical m' e')
    (less : e < e' ∨ e = e' ∧ m < m') :
    (cell m e).high * (cell m e).unit.value ≤ (cell m' e').low * (cell m' e').unit.value ∧
      ((cell m e).high * (cell m e).unit.value = (cell m' e').low * (cell m' e').unit.value →
        (cell m e).closed = false ∨ (cell m' e').closed = false) := by
  have hidden : Binary64.hiddenBit = 4503599627370496 := rfl
  have bound := one.mantissa
  have unit := unit_pos m e
  simp only [closed_iff]
  have high : (cell m e).high = 4 * m + 2 := rfl
  rcases less with less | ⟨rfl, less⟩
  · have least := lt_of_le_of_lt one.least less
    have normal := other.normal least
    have low : 8 * Binary64.hiddenBit - 2 ≤ 2 * (cell m' e').low := by
      dsimp only [cell]
      split <;> omega
    -- next to the last cell of an exponent is the first one of the next exponent, whose unit is twice as wide
    have wide : (2 * (cell m' e').low : Nat) * (cell m e).unit.value ≤
        (cell m' e').low * (cell m' e').unit.value := by
      push_cast
      calc 2 * ((cell m' e').low : ℚ) * (cell m e).unit.value
        _ = (cell m' e').low * (2 * (cell m e).unit.value) := by ring
        _ ≤ (cell m' e').low * (cell m' e').unit.value := by
          gcongr
          exact unit_double less
    refine ⟨le_trans (by gcongr; omega) wide, fun equal => .inl ?_⟩
    have meets : 2 * (cell m' e').low ≤ (cell m e).high := by
      rw [← equal] at wide
      exact_mod_cast le_of_mul_le_mul_right wide unit
    omega
  · have normal := one.normal
    have low : (cell m' e).low = 4 * m' - 2 := by
      dsimp only [cell]
      exact if_neg (by omega)
    have same : (cell m' e).unit.value = (cell m e).unit.value := by rw [unit_value, unit_value]
    rw [same]
    refine ⟨by gcongr; omega, fun equal => ?_⟩
    have meets : (cell m e).high = (cell m' e).low := by
      exact_mod_cast mul_right_cancel₀ unit.ne' equal
    omega

-- No number is read as two values.
theorem cell_unique {m m' : Nat} {e e' : Int} {x : ℚ} (one : Canonical m e) (other : Canonical m' e')
    (covers : (cell m e).Covers x) (covers' : (cell m' e').Covers x) : m = m' ∧ e = e' := by
  have apart : ∀ {m m' : Nat} {e e' : Int}, Canonical m e → Canonical m' e' → (e < e' ∨ e = e' ∧ m < m') →
      (cell m e).Covers x → (cell m' e').Covers x → False := by
    intro m m' e e' one other less covers covers'
    obtain ⟨ordered, open_⟩ := cells_meet one other less
    have high := covers.bounds.2
    have low := covers'.bounds.1
    rcases open_ (by linarith) with unclosed | unclosed
    · linarith [(covers.inside unclosed).2]
    · linarith [(covers'.inside unclosed).1]
  rcases lt_trichotomy e e' with less | rfl | greater
  · exact (apart one other (.inl less) covers covers').elim
  · rcases lt_trichotomy m m' with less | rfl | greater
    · exact (apart one other (.inr ⟨rfl, less⟩) covers covers').elim
    · exact ⟨rfl, rfl⟩
    · exact (apart other one (.inr ⟨rfl, greater⟩) covers' covers).elim
  · exact (apart other one (.inl greater) covers' covers).elim

end Digits

end FieldKernel
