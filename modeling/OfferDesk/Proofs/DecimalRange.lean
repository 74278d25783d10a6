-- Which exact results a decimal can be rounded to. A sum, a difference or a product is lost just
-- when it lies half a unit or more beyond the largest mantissa; within whole bounds it never is.
import Mathlib.Algebra.Order.Field.Basic
import Mathlib.Algebra.Order.Field.Rat
import Mathlib.Algebra.Order.Ring.Abs
import Mathlib.Tactic.FieldSimp
import Mathlib.Tactic.Linarith
import OfferDesk.Proofs.Decimals

namespace OfferDesk

/-! ## Rounding at the end of the range -/

namespace Quotient

variable {n : Int} {d : Nat}

/-- Halfway between two whole numbers the even one is taken. -/
theorem halfEven_even_of_tie (h : 2 * (n % (d : Int)) = d) : halfEven n d % 2 = 0 := by
  unfold halfEven
  dsimp only
  rw [if_neg (by omega), if_neg (by omega)]
  split <;> omega

/-- A quotient that is an odd number of halves lies halfway between two whole numbers. -/
theorem tie_of_odd_halves {k : Int} (hd : 0 < d) (hk : k % 2 = 1) (h : 2 * n = k * d) :
    2 * (n % (d : Int)) = d := by
  have hdiv := Int.mul_ediv_add_emod n d
  have hr := Int.emod_nonneg n (b := (d : Int)) (by omega)
  have hlt := Int.emod_lt_of_pos n (b := (d : Int)) (by omega)
  have hhalves : 2 * (n % (d : Int)) = (k - 2 * (n / (d : Int))) * d := by
    rw [Int.sub_mul, ← h, Int.mul_assoc, Int.mul_comm (n / (d : Int))]
    omega
  have hodd : (k - 2 * (n / (d : Int))) % 2 = 1 := by omega
  generalize k - 2 * (n / (d : Int)) = j at hhalves hodd
  have hone : j = 1 := by
    rcases Int.lt_or_le j 1 with hneg | hpos
    · have : j * (d : Int) < 0 := Int.mul_neg_of_neg_of_pos (by omega) (by omega)
      omega
    · rcases Int.lt_or_le 1 j with hmore | hle
      · have : 2 * (d : Int) ≤ j * d := Int.mul_le_mul_of_nonneg_right (by omega) (by omega)
        omega
      · omega
  rw [hhalves, hone, Int.one_mul]

/-- A quotient is rounded to a mantissa in range just if it lies less than half a unit beyond the
largest one. That one is odd, so halfway a quotient is rounded out of the range. -/
theorem natAbs_halfEven_le_max_iff (hd : 0 < d) :
    (halfEven n d).natAbs ≤ maxMantissa ↔ 2 * n.natAbs < (2 * maxMantissa + 1) * d := by
  have hnear := halfEven_near n hd
  have hmul : (halfEven n d * d).natAbs = (halfEven n d).natAbs * d := by
    rw [Int.natAbs_mul, Int.natAbs_natCast]
  constructor
  · intro hle
    have hprod : (halfEven n d).natAbs * d ≤ maxMantissa * d := Nat.mul_le_mul_right d hle
    by_contra hge
    have htop : (2 * maxMantissa + 1) * d = 2 * (maxMantissa * d) + d := by ring
    have hall : (halfEven n d).natAbs = maxMantissa :=
      Nat.eq_of_mul_eq_mul_right hd (by omega)
    have htopInt : (2 * (maxMantissa : Int) + 1) * d = 2 * ((maxMantissa * d : Nat) : Int) + d := by
      push_cast
      ring
    -- a quotient this far out that still comes to the largest mantissa is halfway, on either side
    have htie : 2 * (n % (d : Int)) = d := by
      rcases Int.natAbs_eq n with hn | hn
      · refine tie_of_odd_halves (k := 2 * maxMantissa + 1) hd (by omega) ?_
        omega
      · refine tie_of_odd_halves (k := -(2 * maxMantissa + 1)) hd (by omega) ?_
        rw [Int.neg_mul]
        omega
    have heven := halfEven_even_of_tie htie
    unfold maxMantissa at hall
    omega
  · intro hlt
    by_contra hgt
    have hprod : (maxMantissa + 1) * d ≤ (halfEven n d).natAbs * d :=
      Nat.mul_le_mul_right d (Nat.lt_of_not_le hgt)
    rw [Nat.add_mul, Nat.one_mul] at hprod
    rw [Nat.add_mul, Nat.mul_assoc, Nat.one_mul] at hlt
    omega

end Quotient

namespace Decimal

variable {a b c : Decimal} {n : Int} {d : Nat}

/-! ## Results that can be held -/

/-- Some decimal is the nearest one to a number: it lies less than half a unit beyond the largest
mantissa. -/
def Fits (x : Rat) : Prop := |x| < maxMantissa + 1 / 2

theorem fits_div_iff (hd : 0 < d) :
    Fits ((n : Rat) / d) ↔ 2 * n.natAbs < (2 * maxMantissa + 1) * d := by
  have hd' : (0 : Rat) < d := Nat.cast_pos.mpr hd
  rw [Fits, abs_div, abs_of_pos hd', div_lt_iff₀ hd', ← Int.cast_abs, Int.abs_eq_natAbs,
    Int.cast_natCast, ← Nat.cast_lt (α := Rat)]
  push_cast
  constructor <;> intro h <;> linarith

theorem ofParts?_isSome_iff {scale : Nat} (hs : scale ≤ maxScale) :
    (ofParts? n scale).isSome = true ↔ n.natAbs ≤ maxMantissa := by
  unfold ofParts?
  split
  · rename_i h
    simp [h.1]
  · rename_i h
    simpa using fun hn => h ⟨hn, hs⟩

/-- A number is rounded to some decimal just if it fits without places. -/
theorem nearest?_isSome_iff (hd : 0 < d) {scale : Nat} (hs : scale ≤ maxScale) :
    (nearest? n d scale).isSome = true ↔ Fits ((n : Rat) / d) := by
  rw [fits_div_iff hd]
  induction scale with
  | zero => rw [nearest?, ofParts?_isSome_iff hs, Quotient.natAbs_halfEven_le_max_iff hd]
  | succ s ih =>
    rw [nearest?, Option.orElse_eq_orElse, Option.orElse_eq_or, Option.isSome_or, Bool.or_eq_true,
      ih (Nat.le_of_succ_le hs), ofParts?_isSome_iff hs, Quotient.natAbs_halfEven_le_max_iff hd]
    refine ⟨fun h => h.elim (fun hmore => ?_) id, Or.inr⟩
    have hgrows : n.natAbs ≤ (n * pow10 (s + 1)).natAbs := by
      rw [Int.natAbs_mul, Int.natAbs_natCast]
      exact Nat.le_mul_of_pos_right _ (pow10_pos _)
    omega

theorem toRat_eq_div (a : Decimal) : a.toRat = (a.mantissa : Rat) / (pow10 a.scale : Nat) :=
  Rat.mkRat_eq_div ..

theorem toRat_of_isZero (h : a.isZero = true) : a.toRat = 0 := by
  have hz : a.mantissa = 0 := by simpa [isZero] using h
  rw [toRat_eq_div, hz, Int.cast_zero, zero_div]

theorem toRat_zero : (zero : Decimal).toRat = 0 := toRat_of_isZero rfl

@[simp] theorem toRat_neg (a : Decimal) : a.neg.toRat = -a.toRat := by
  rw [toRat_eq_div, toRat_eq_div, neg, Int.cast_neg, neg_div]

theorem toRat_fits (a : Decimal) : Fits a.toRat := by
  rw [toRat_eq_div, fits_div_iff (pow10_pos _)]
  have hone : maxMantissa ≤ maxMantissa * pow10 a.scale :=
    Nat.le_mul_of_pos_right _ (pow10_pos _)
  have hle := a.mantissa_le
  have hpos := pow10_pos a.scale
  rw [Nat.add_mul, Nat.mul_assoc, Nat.one_mul]
  omega

theorem toRat_add_eq (a b : Decimal) : a.toRat + b.toRat =
    ((a.mantissa * pow10 b.scale + b.mantissa * pow10 a.scale : Int) : Rat) /
      (pow10 (a.scale + b.scale) : Nat) := by
  have ha : (pow10 a.scale : Rat) ≠ 0 := Nat.cast_ne_zero.mpr (pow10_pos _).ne'
  have hb : (pow10 b.scale : Rat) ≠ 0 := Nat.cast_ne_zero.mpr (pow10_pos _).ne'
  rw [toRat_eq_div, toRat_eq_div, pow10_add]
  push_cast
  field_simp

theorem toRat_mul_eq (a b : Decimal) : a.toRat * b.toRat =
    ((a.mantissa * b.mantissa : Int) : Rat) / (pow10 (a.scale + b.scale) : Nat) := by
  rw [toRat_eq_div, toRat_eq_div, pow10_add]
  push_cast
  rw [div_mul_div_comm]

/-- Nothing comes of a factor of zero. -/
theorem toRat_mul_of_isZero (h : (a.isZero || b.isZero) = true) : a.toRat * b.toRat = 0 := by
  rcases Bool.or_eq_true_iff.mp h with ha | hb
  · rw [toRat_of_isZero ha, zero_mul]
  · rw [toRat_of_isZero hb, mul_zero]

theorem add?_isSome_iff : (a.add? b).isSome = true ↔ Fits (a.toRat + b.toRat) := by
  unfold add?
  split
  · rename_i ha
    simpa [toRat_of_isZero ha] using b.toRat_fits
  split
  · rename_i _ hb
    simpa [toRat_of_isZero hb] using a.toRat_fits
  · rw [toRat_add_eq, nearest?_isSome_iff (pow10_pos _) (Nat.max_le.mpr ⟨a.scale_le, b.scale_le⟩)]

theorem sub?_isSome_iff : (a.sub? b).isSome = true ↔ Fits (a.toRat - b.toRat) := by
  rw [sub?, add?_isSome_iff, toRat_neg, sub_eq_add_neg]

theorem mul?_isSome_iff : (a.mul? b).isSome = true ↔ Fits (a.toRat * b.toRat) := by
  unfold mul?
  split
  · rename_i hzero
    rw [toRat_mul_of_isZero hzero, ← toRat_zero]
    exact iff_of_true rfl zero.toRat_fits
  · rw [toRat_mul_eq, nearest?_isSome_iff (pow10_pos _) (Nat.min_le_left _ _)]

/-! ## Whole bounds -/

/-- The number is at most a whole bound away from zero. -/
def Within (a : Decimal) (bound : Nat) : Prop := |a.toRat| ≤ bound

theorem abs_div_le_iff (hd : 0 < d) {bound : Nat} :
    |(n : Rat) / d| ≤ bound ↔ n.natAbs ≤ bound * d := by
  have hd' : (0 : Rat) < d := Nat.cast_pos.mpr hd
  rw [abs_div, abs_of_pos hd', div_le_iff₀ hd', ← Int.cast_abs, Int.abs_eq_natAbs,
    Int.cast_natCast, ← Nat.cast_mul, Nat.cast_le]

theorem within_iff {bound : Nat} :
    a.Within bound ↔ a.mantissa.natAbs ≤ bound * pow10 a.scale := by
  rw [Within, toRat_eq_div, abs_div_le_iff (pow10_pos _)]

instance {bound : Nat} : Decidable (a.Within bound) := decidable_of_iff' _ within_iff

theorem within_of_isZero (h : a.isZero = true) (bound : Nat) : a.Within bound := by
  rw [Within, toRat_of_isZero h, abs_zero]
  exact Nat.cast_nonneg _

theorem Within.mono {bound more : Nat} (h : a.Within bound) (hle : bound ≤ more) :
    a.Within more :=
  le_trans h (Nat.cast_le.mpr hle)

theorem Within.neg {bound : Nat} (h : a.Within bound) : a.neg.Within bound := by
  rwa [Within, toRat_neg, abs_neg]

theorem Within.floorAtZero {bound : Nat} (h : a.Within bound) : a.floorAtZero.Within bound := by
  unfold Decimal.floorAtZero
  split
  · exact h
  · exact within_of_isZero rfl bound

/-- Whatever is within the largest mantissa fits. -/
theorem fits_of_abs_le {x : Rat} {bound : Nat} (h : |x| ≤ bound) (hb : bound ≤ maxMantissa) :
    Fits x := by
  have hb' : (bound : Rat) ≤ maxMantissa := Nat.cast_le.mpr hb
  rw [Fits]
  linarith

/-- A number that is rounded at whatever scale stays within a whole bound that it was within. -/
theorem within_nearest? {bound scale : Nat} (hd : 0 < d) (hx : n.natAbs ≤ bound * d)
    (h : nearest? n d scale = some c) : c.Within bound := by
  have hparts {m : Int} {s : Nat} (hm : m.natAbs ≤ bound * pow10 s)
      (hc : ofParts? m s = some c) : c.Within bound := by
    unfold ofParts? at hc
    split at hc
    · cases hc
      exact within_iff.mpr hm
    · cases hc
  induction scale with
  | zero => exact hparts (by simpa [pow10] using Quotient.natAbs_halfEven_le hd hx) h
  | succ s ih =>
    rw [nearest?, Option.orElse_eq_orElse, Option.orElse_eq_or, Option.or_eq_some_iff] at h
    rcases h with hfirst | ⟨_, hrest⟩
    · refine hparts (Quotient.natAbs_halfEven_le hd ?_) hfirst
      rw [Int.natAbs_mul, Int.natAbs_natCast, Nat.mul_right_comm]
      exact Nat.mul_le_mul_right _ hx
    · exact ih hrest

theorem within_of_add? {bound : Nat} (hx : |a.toRat + b.toRat| ≤ bound)
    (h : a.add? b = some c) : c.Within bound := by
  unfold add? at h
  split at h
  · rename_i ha
    cases h
    simpa [Within, toRat_of_isZero ha] using hx
  split at h
  · rename_i _ hb
    cases h
    simpa [Within, toRat_of_isZero hb] using hx
  · rw [toRat_add_eq, abs_div_le_iff (pow10_pos _)] at hx
    exact within_nearest? (pow10_pos _) hx h

theorem Within.add {m k : Nat} (ha : a.Within m) (hb : b.Within k) :
    |a.toRat + b.toRat| ≤ (m + k : Nat) := by
  rw [Nat.cast_add]
  exact le_trans (abs_add_le _ _) (add_le_add ha hb)

theorem within_add? {m k : Nat} (ha : a.Within m) (hb : b.Within k) (h : a.add? b = some c) :
    c.Within (m + k) :=
  within_of_add? (ha.add hb) h

theorem Within.mul {m k : Nat} (ha : a.Within m) (hb : b.Within k) :
    |a.toRat * b.toRat| ≤ (m * k : Nat) := by
  rw [Nat.cast_mul, abs_mul]
  exact mul_le_mul ha hb (abs_nonneg _) (Nat.cast_nonneg _)

theorem within_mul? {m k : Nat} (ha : a.Within m) (hb : b.Within k) (h : a.mul? b = some c) :
    c.Within (m * k) := by
  have hx := ha.mul hb
  unfold mul? at h
  split at h
  · cases h
    exact within_of_isZero rfl _
  · rw [toRat_mul_eq, abs_div_le_iff (pow10_pos _)] at hx
    exact within_nearest? (pow10_pos _) hx h

/-- The number lies between zero and a whole bound. -/
structure UpTo (a : Decimal) (bound : Nat) : Prop where
  nonneg : 0 ≤ a.toRat
  le : a.toRat ≤ bound

theorem upTo_iff {bound : Nat} :
    a.UpTo bound ↔ 0 ≤ a.mantissa ∧ a.mantissa ≤ bound * pow10 a.scale := by
  have hpos : (0 : Rat) < (pow10 a.scale : Nat) := Nat.cast_pos.mpr (pow10_pos _)
  have hnonneg : 0 ≤ a.toRat ↔ 0 ≤ a.mantissa := by
    rw [toRat_eq_div, le_div_iff₀ hpos, zero_mul, Int.cast_nonneg_iff]
  have hle : a.toRat ≤ bound ↔ a.mantissa ≤ bound * pow10 a.scale := by
    rw [toRat_eq_div, div_le_iff₀ hpos]
    norm_cast
  rw [← hnonneg, ← hle]
  exact ⟨fun h => ⟨h.nonneg, h.le⟩, fun h => ⟨h.1, h.2⟩⟩

instance {bound : Nat} : Decidable (a.UpTo bound) := decidable_of_iff' _ upTo_iff

theorem UpTo.mono {bound more : Nat} (h : a.UpTo bound) (hle : bound ≤ more) : a.UpTo more :=
  ⟨h.nonneg, le_trans h.le (Nat.cast_le.mpr hle)⟩

theorem UpTo.sub {bound : Nat} (ha : a.UpTo bound) (hb : b.UpTo bound) :
    |a.toRat - b.toRat| ≤ bound :=
  abs_sub_le_iff.mpr ⟨by linarith [ha.le, hb.nonneg], by linarith [ha.nonneg, hb.le]⟩

theorem within_sub? {bound : Nat} (ha : a.UpTo bound) (hb : b.UpTo bound)
    (h : a.sub? b = some c) : c.Within bound := by
  refine within_of_add? ?_ h
  rw [toRat_neg, ← sub_eq_add_neg]
  exact ha.sub hb

end Decimal

end OfferDesk
