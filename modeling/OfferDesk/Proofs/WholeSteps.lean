-- Numbers in whole steps of a power of ten. A quotient by such a step is not rounded: the point
-- moves as far as there are places for it, and a number whose quotient is too large to hold has no
-- digits below the step. So what remains of a number is always its exact floor, and the amounts and
-- prices of a trading rule go down to the whole step below them.
import Mathlib.Data.Rat.Floor
import OfferDesk.Proofs.WireAmounts
import OfferDesk.Rule

namespace OfferDesk

namespace Decimal

variable {a b c : Decimal} {x : Rat} {places : Nat}

/-! ## Floors -/

/-- The largest number of so many places that is not above a number. -/
def floorTo (x : Rat) (places : Nat) : Rat :=
  ⌊x * (pow10 places : Nat)⌋ / (pow10 places : Nat)

theorem floorTo_le (x : Rat) (places : Nat) : floorTo x places ≤ x := by
  rw [floorTo, div_le_iff₀ (pow10_cast_pos _)]
  exact Int.floor_le _

theorem lt_floorTo_add (x : Rat) (places : Nat) :
    x < floorTo x places + 1 / (pow10 places : Nat) := by
  rw [floorTo, ← add_div, lt_div_iff₀ (pow10_cast_pos _)]
  exact Int.lt_floor_add_one _

theorem floorTo_mono {x y : Rat} (h : x ≤ y) (places : Nat) :
    floorTo x places ≤ floorTo y places := by
  have hscaled : x * (pow10 places : Nat) ≤ y * (pow10 places : Nat) :=
    mul_le_mul_of_nonneg_right h (pow10_cast_pos places).le
  rw [floorTo, floorTo, div_le_div_iff_of_pos_right (pow10_cast_pos places)]
  exact Int.cast_le.mpr (Int.floor_mono hscaled)

/-- A number without digits below the last of these places is its own floor. -/
theorem floorTo_of_whole {n : Int} (h : x * (pow10 places : Nat) = n) : floorTo x places = x := by
  rw [floorTo, h, Int.floor_intCast, ← h, mul_div_cancel_right₀ _ (pow10_ne_zero _)]

theorem floorTo_floorTo (x : Rat) (places : Nat) :
    floorTo (floorTo x places) places = floorTo x places :=
  floorTo_of_whole (div_mul_cancel₀ _ (pow10_ne_zero places))

theorem toRat_floor (a : Decimal) : a.floor.toRat = ⌊a.toRat⌋ := by
  have hfloor : ⌊a.toRat⌋ = a.mantissa / (pow10 a.scale : Int) := by
    rw [toRat_eq_div]
    exact Rat.floor_intCast_div_natCast _ _
  rw [hfloor]
  exact toRat_of_whole rfl

/-! ## Steps -/

theorem toRat_tenth (places : Nat) :
    (tenth places).toRat = 1 / (pow10 (min places maxScale) : Nat) := by
  rw [toRat_eq_div, tenth, Int.cast_one]

theorem toRat_tenth_pos (places : Nat) : 0 < (tenth places).toRat := by
  rw [toRat_tenth]
  exact one_div_pos.mpr (pow10_cast_pos _)

theorem div_tenth (x : Rat) (places : Nat) :
    x / (tenth places).toRat = x * (pow10 (min places maxScale) : Nat) := by
  rw [toRat_tenth, div_div_eq_mul_div, div_one]

theorem fits_of_div? (hb : 0 < b.toRat) (h : a.div? b = some c) : Fits (a.toRat / b.toRat) := by
  rcases div?_cases hb h with hexact | ⟨e, rfl, he⟩
  · rw [← hexact]
    exact c.toRat_fits
  · rw [toRat_div_eq a hb, ← nearest?_isSome_iff (div_parts_pos a hb) (Nat.le_refl _), he]
    rfl

/-- A number whose quotient by a step is too large to hold stays as it is. -/
theorem floorBy_of_not_fits (h : ¬ Fits (a.toRat * (pow10 (min places maxScale) : Nat))) :
    a.floorBy (tenth places) = a := by
  have hnone : a.div? (tenth places) = none := by
    by_contra hsome
    obtain ⟨units, hunits⟩ := Option.ne_none_iff_exists'.mp hsome
    have hfits := fits_of_div? (toRat_tenth_pos places) hunits
    rw [div_tenth] at hfits
    exact h hfits
  rw [floorBy, hnone, Option.bind_none, ite_self]

/-- What remains of a number in whole steps of a power of ten is its exact floor. -/
theorem toRat_floorBy (a : Decimal) (places : Nat) :
    (a.floorBy (tenth places)).toRat = floorTo a.toRat (min places maxScale) := by
  have hstep := toRat_tenth_pos places
  rcases a.moved_point (min places maxScale) with ⟨b, _, hb⟩ | ⟨n, hn, hlarge⟩
  · rw [floorBy, if_pos (isPositive_iff.mpr hstep)]
    rw [← div_tenth] at hb
    obtain ⟨units, hunits, hunitsRat⟩ := div?_exact hstep hb
    rw [hb, div_tenth] at hunitsRat
    let floored : Decimal := ⟨units.floor.mantissa, min places maxScale, units.floor.mantissa_le,
      Nat.min_le_right _ _⟩
    have hfloored : floored.toRat = units.floor.toRat * (tenth places).toRat := by
      rw [toRat_of_whole (a := units.floor) rfl, toRat_tenth, mul_one_div, toRat_eq_div]
    have hscale : floored.scale ≤ units.floor.scale + (tenth places).scale := Nat.le_add_left _ _
    obtain ⟨c, hc, hcRat⟩ := mul?_exact hscale hfloored
    simp only [hunits, Option.bind_some, hc]
    rw [toRat_reduce, hcRat, hfloored, toRat_floor, hunitsRat, toRat_tenth, mul_one_div, floorTo]
  · rw [← hn] at hlarge
    rw [floorBy_of_not_fits hlarge, floorTo_of_whole hn]

/-- A rounding takes every number down to a whole step of a power of ten: to the largest one that is
not above the number, also where the count of steps is too large to hold. -/
structure FloorsTo (round : Decimal → Decimal) (places : Nat) : Prop where
  exact : ∀ a, (round a).toRat = ⌊a.toRat * (pow10 places : Nat)⌋ / (pow10 places : Nat)
  le : ∀ a, round a ≤ a
  within : ∀ a, a.toRat < (round a).toRat + 1 / (pow10 places : Nat)
  whole : ∀ a, ∃ n : Int, (round a).toRat = n * (1 / (pow10 places : Nat))
  again : ∀ a, (round (round a)).toRat = (round a).toRat
  mono : ∀ a b, a ≤ b → round a ≤ round b
  large : ∀ a, ¬ Fits (a.toRat * (pow10 places : Nat)) → round a = a

theorem floorsTo_floorBy (places : Nat) :
    FloorsTo (floorBy · (tenth places)) (min places maxScale) where
  exact a := a.toRat_floorBy places
  le a := by
    rw [le_iff, toRat_floorBy]
    exact floorTo_le _ _
  within a := by
    rw [toRat_floorBy]
    exact lt_floorTo_add _ _
  whole a := by
    refine ⟨⌊a.toRat * (pow10 (min places maxScale) : Nat)⌋, ?_⟩
    rw [toRat_floorBy, floorTo, mul_one_div]
  again a := by
    rw [toRat_floorBy, toRat_floorBy, floorTo_floorTo]
  mono a b h := by
    rw [le_iff, toRat_floorBy, toRat_floorBy]
    exact floorTo_mono (le_iff.mp h) _
  large a h := floorBy_of_not_fits h

/-! Below zero the floor lies farther from zero. -/

example : (⟨-1255, 3, by decide, by decide⟩ : Decimal).floorBy (tenth 2) =
    ⟨-126, 2, by decide, by decide⟩ := by decide

end Decimal

/-! ## Amounts and prices of a rule -/

namespace RuleInfo

/-- The places of an amount in a market. -/
def amountPlaces (i : RuleInfo) : Nat := min i.baseTickSize.toNat maxScale

/-- The places of a price in a market. -/
def pricePlaces (i : RuleInfo) : Nat := min i.quoteTickSize.toNat maxScale

/-- A price in whole steps is the requested one rounded down. -/
theorem toRat_floorPrice (i : RuleInfo) (price : Decimal) :
    (i.tradingRule.floorPrice price).toRat = Decimal.floorTo price.toRat i.pricePlaces :=
  price.toRat_floorBy _

/-- Amounts and prices of any size go down to the whole step below them. The steps are what the
rule of the market says they are. -/
theorem amounts_and_prices_go_down_to_whole_steps (i : RuleInfo) :
    (i.tradingRule.minBaseAmountIncrement.toRat = 1 / (pow10 i.amountPlaces : Nat) ∧
      Decimal.FloorsTo i.tradingRule.floorAmount i.amountPlaces) ∧
    (i.tradingRule.minPriceIncrement.toRat = 1 / (pow10 i.pricePlaces : Nat) ∧
      Decimal.FloorsTo i.tradingRule.floorPrice i.pricePlaces) :=
  ⟨⟨Decimal.toRat_tenth _, Decimal.floorsTo_floorBy _⟩,
    ⟨Decimal.toRat_tenth _, Decimal.floorsTo_floorBy _⟩⟩

end RuleInfo

end OfferDesk
