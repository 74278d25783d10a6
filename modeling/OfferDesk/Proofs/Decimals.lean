-- The order and the range of decimals. In units of the last place that a decimal can have, every
-- decimal is a whole number, and decimals compare as these numbers do.
import Mathlib.Algebra.Order.Ring.Int
import Mathlib.Order.Compare
import Mathlib.Tactic.Ring
import OfferDesk.Decimal.Basic

namespace OfferDesk

/-- A number that is rounded stays within a whole bound that it was within. -/
theorem Quotient.natAbs_halfEven_le {n : Int} {d bound : Nat} (hd : 0 < d)
    (h : n.natAbs ≤ bound * d) : (halfEven n d).natAbs ≤ bound := by
  have hnear := halfEven_near n hd
  have hmul : (halfEven n d * d).natAbs = (halfEven n d).natAbs * d := by
    rw [Int.natAbs_mul, Int.natAbs_natCast]
  by_contra hlt
  have hstep : (bound + 1) * d ≤ (halfEven n d).natAbs * d :=
    Nat.mul_le_mul_right d (Nat.lt_of_not_le hlt)
  rw [Nat.add_mul, Nat.one_mul] at hstep
  omega

namespace Decimal

/-! ## Order -/

/-- The number in units of the last place that a decimal can have. -/
def units (a : Decimal) : Int := a.mantissa * pow10 (maxScale - a.scale)

theorem compare_mul_pos {x y c : Int} (hc : 0 < c) :
    Ord.compare (x * c) (y * c) = Ord.compare x y := by
  rcases lt_trichotomy x y with h | h | h
  · rw [compare_lt_iff_lt.mpr h, compare_lt_iff_lt.mpr (Int.mul_lt_mul_of_pos_right h hc)]
  · rw [h, compare_eq_iff_eq.mpr rfl, compare_eq_iff_eq.mpr rfl]
  · rw [compare_gt_iff_gt.mpr h, compare_gt_iff_gt.mpr (Int.mul_lt_mul_of_pos_right h hc)]

theorem pow10_mul_rest (a : Decimal) :
    (pow10 a.scale * pow10 (maxScale - a.scale) : Int) = pow10 maxScale := by
  have h : a.scale + (maxScale - a.scale) = maxScale := Nat.add_sub_cancel' a.scale_le
  rw [← h, pow10_add, h]
  push_cast
  rfl

/-- Decimals compare as their numbers of units do. -/
theorem compare_eq_units (a b : Decimal) : a.compare b = Ord.compare a.units b.units := by
  have hpos : (0 : Int) < pow10 (maxScale - a.scale) * pow10 (maxScale - b.scale) := by
    have ha := pow10_pos (maxScale - a.scale)
    have hb := pow10_pos (maxScale - b.scale)
    exact Int.mul_pos (by omega) (by omega)
  have hmax : (0 : Int) < pow10 maxScale := by
    have h := pow10_pos maxScale
    omega
  unfold compare
  rw [← compare_mul_pos hpos, ← compare_mul_pos (x := a.units) hmax]
  congr 1
  · rw [← pow10_mul_rest b, units]
    ring
  · rw [← pow10_mul_rest a, units]
    ring

instance : Std.TransCmp Decimal.compare := by
  have h : Decimal.compare = compareOn units := funext₂ compare_eq_units
  rw [h]
  infer_instance

/-! ## Signs -/

variable {a : Decimal}

theorem not_isPositive_of_isZero (h : a.isZero = true) : a.isPositive = false := by
  have hz : a.mantissa = 0 := by simpa [isZero] using h
  simp [isPositive, hz]

theorem nonneg_of_isPositive (h : a.isPositive = true) : 0 ≤ a.mantissa :=
  Int.le_of_lt (of_decide_eq_true h)

theorem isPositive_of_nonneg (h : 0 ≤ a.mantissa) (hz : a.isZero = false) :
    a.isPositive = true := by
  have hne : a.mantissa ≠ 0 := by simpa [isZero] using hz
  exact decide_eq_true (by omega)

theorem floorAtZero_nonneg (a : Decimal) : 0 ≤ a.floorAtZero.mantissa := by
  unfold floorAtZero
  split
  · rename_i h
    exact nonneg_of_isPositive h
  · exact Int.le_refl 0

theorem isPositive_floorAtZero (a : Decimal) : a.floorAtZero.isPositive = a.isPositive := by
  unfold floorAtZero
  cases h : a.isPositive with
  | false => rfl
  | true => exact h

/-! ## Range -/

theorem nearest?_isSome {n : Int} {d : Nat} (hd : 0 < d) (h : n.natAbs ≤ maxMantissa * d)
    (scale : Nat) : (nearest? n d scale).isSome = true := by
  induction scale with
  | zero =>
    unfold nearest? ofParts?
    rw [dif_pos ⟨Quotient.natAbs_halfEven_le hd h, by decide⟩]
    rfl
  | succ s ih =>
    unfold nearest?
    cases ofParts? (Quotient.halfEven (n * pow10 (s + 1)) d) (s + 1) with
    | some a => rfl
    | none => exact ih

theorem natAbs_scaled_le (a : Decimal) (s t : Nat) :
    (a.mantissa * pow10 s).natAbs ≤ maxMantissa * pow10 (t + s) := by
  have hone : pow10 s ≤ pow10 (t + s) := by
    rw [pow10_add]
    exact Nat.le_mul_of_pos_left _ (pow10_pos t)
  calc (a.mantissa * pow10 s).natAbs = a.mantissa.natAbs * pow10 s := by
        rw [Int.natAbs_mul, Int.natAbs_natCast]
    _ ≤ maxMantissa * pow10 s := Nat.mul_le_mul_right _ a.mantissa_le
    _ ≤ maxMantissa * pow10 (t + s) := Nat.mul_le_mul_left _ hone

/-- The difference of two numbers that are not below zero is in range. -/
theorem sub?_isSome {a b : Decimal} (ha : 0 ≤ a.mantissa) (hb : 0 ≤ b.mantissa) :
    (a.sub? b).isSome = true := by
  unfold sub? add?
  split
  · rfl
  split
  · rfl
  refine nearest?_isSome (pow10_pos _) ?_ _
  have hA : 0 ≤ a.mantissa * pow10 b.scale := Int.mul_nonneg ha (Int.natCast_nonneg _)
  have hB : 0 ≤ b.mantissa * pow10 a.scale := Int.mul_nonneg hb (Int.natCast_nonneg _)
  have hA' := natAbs_scaled_le a b.scale a.scale
  have hB' := natAbs_scaled_le b a.scale b.scale
  rw [Nat.add_comm b.scale] at hB'
  show (a.mantissa * pow10 b.scale + -b.mantissa * pow10 a.scale).natAbs ≤
    maxMantissa * pow10 (a.scale + b.scale)
  rw [Int.neg_mul]
  omega

end Decimal

end OfferDesk
