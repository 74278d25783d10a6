-- What a value comes to on the wire: a whole number of drops, or of the last of the digits that the
-- ledger keeps. What is written there reads back as it was written. A native value vanishes where
-- it is at most half a drop. An issued value never does, because it keeps its first digit.
import OfferDesk.Proofs.DecimalText
import OfferDesk.Proofs.Rounding

namespace OfferDesk

/-- A whole number of units that is nearest to a number. -/
structure NearestUnits (unit x y : Rat) : Prop where
  whole : ∃ k : Int, y = k * unit
  near : |y - x| ≤ unit / 2

namespace NearestUnits

variable {unit x y : Rat}

theorem of_near {k : Int} (hunit : 0 < unit) (h : |(k : Rat) - x / unit| ≤ 1 / 2) :
    NearestUnits unit x (k * unit) where
  whole := ⟨k, rfl⟩
  near := by
    have hsame : (k : Rat) * unit - x = (k - x / unit) * unit := by
      rw [sub_mul, div_mul_cancel₀ _ hunit.ne']
    calc |(k : Rat) * unit - x| = |(k : Rat) - x / unit| * unit := by
          rw [hsame, abs_mul, abs_of_pos hunit]
      _ ≤ 1 / 2 * unit := mul_le_mul_of_nonneg_right h hunit.le
      _ = unit / 2 := by ring

/-- A whole number of units is nearest to itself alone. -/
theorem eq_of_whole {k : Int} (hunit : 0 < unit) (h : NearestUnits unit (k * unit) y) :
    y = k * unit := by
  obtain ⟨j, rfl⟩ := h.whole
  have hclose := h.near
  rw [← sub_mul, abs_mul, abs_of_pos hunit] at hclose
  have hhalf : |(j : Rat) - k| ≤ 1 / 2 := le_of_mul_le_mul_right (by linarith) hunit
  have hone : |j - k| < 1 := by
    have : |((j - k : Int) : Rat)| < 1 := by
      push_cast
      linarith
    exact_mod_cast this
  rw [Int.sub_eq_zero.mp (Int.abs_lt_one_iff.mp hone)]

/-- What is no less than a unit does not vanish. -/
theorem pos (h : NearestUnits unit x y) (hunit : 0 < unit) (hx : unit ≤ x) : 0 < y := by
  obtain ⟨hlow, _⟩ := abs_le.mp h.near
  linarith

end NearestUnits

/-- A number rounded to a whole number of units, a tie away from zero. -/
def RoundedAway (unit x y : Rat) : Prop := ∃ k : Int, y = k * unit ∧ NearestAway k (x / unit)

namespace RoundedAway

variable {unit x y z : Rat}

theorem nearest (h : RoundedAway unit x y) (hunit : 0 < unit) : NearestUnits unit x y := by
  obtain ⟨k, rfl, hk⟩ := h
  exact .of_near hunit hk.near

theorem eq (hy : RoundedAway unit x y) (hz : RoundedAway unit x z) : y = z := by
  obtain ⟨k, rfl, hk⟩ := hy
  obtain ⟨j, rfl, hj⟩ := hz
  rw [hk.eq hj]

theorem neg (h : RoundedAway unit x y) : RoundedAway unit (-x) (-y) := by
  obtain ⟨k, rfl, hk⟩ := h
  exact ⟨-k, by rw [Int.cast_neg, neg_mul], by rw [neg_div]; exact hk.neg⟩

/-- What is a whole number of units is not rounded. -/
theorem of_whole {k : Int} (hunit : unit ≠ 0) : RoundedAway unit (k * unit) (k * unit) :=
  ⟨k, rfl, by rw [mul_div_cancel_right₀ _ hunit]; exact .self k⟩

theorem eq_self_iff (hunit : unit ≠ 0) (h : RoundedAway unit x y) :
    y = x ↔ ∃ k : Int, x = k * unit := by
  constructor
  · rintro rfl
    obtain ⟨k, hk, _⟩ := h
    exact ⟨k, hk⟩
  · rintro ⟨k, rfl⟩
    exact h.eq (.of_whole hunit)

end RoundedAway

namespace Decimal

variable {a b c : Decimal}

/-! ## Rounding to places -/

/-- Up to some place a number is a quotient by what the places behind it are worth. -/
theorem toRat_mul_pow10_of_lt {p : Nat} (hp : p < a.scale) :
    a.toRat * (pow10 p : Nat) = (a.mantissa : Rat) / (pow10 (a.scale - p) : Nat) := by
  have hsplit : pow10 a.scale = pow10 p * pow10 (a.scale - p) := by
    rw [← pow10_add, Nat.add_sub_cancel' hp.le]
  have h1 := pow10_ne_zero p
  have h2 := pow10_ne_zero (a.scale - p)
  rw [toRat_eq_div, hsplit]
  push_cast
  field_simp

theorem toRat_of_whole (h : a.scale = 0) : a.toRat = a.mantissa := by
  rw [toRat_eq_div, h, show pow10 0 = 1 from rfl, Nat.cast_one, div_one]

/-- Rounded to no places a number is a nearest whole one. -/
theorem roundEven_zero (a : Decimal) : (a.roundEven 0).scale = 0 ∧
    (a.roundEven 0).toRat = (a.roundEven 0).mantissa ∧
    NearestEven (a.roundEven 0).mantissa a.toRat := by
  have hscale : (a.roundEven 0).scale = 0 := by
    unfold roundEven cut
    split
    · rfl
    · omega
  refine ⟨hscale, toRat_of_whole hscale, ?_⟩
  unfold roundEven cut
  split
  · rw [toRat_eq_div]
    exact Quotient.nearestEven_halfEven _ (pow10_pos _)
  · rw [toRat_of_whole (by omega)]
    exact .self _

/-! ## Digits -/

/-- Ten to a whole power, above or below zero. -/
def tenPow (e : Int) : Rat := 10 ^ e

theorem tenPow_pos (e : Int) : 0 < tenPow e := zpow_pos (by norm_num) e

theorem tenPow_nat (n : Nat) : tenPow n = (pow10 n : Nat) := by
  rw [tenPow, zpow_natCast, cast_pow10]

theorem tenPow_neg (n : Nat) : tenPow (-n) = 1 / (pow10 n : Nat) := by
  rw [tenPow, zpow_neg, zpow_natCast, cast_pow10, one_div]

theorem tenPow_add (e f : Int) : tenPow (e + f) = tenPow e * tenPow f :=
  zpow_add₀ (by norm_num) e f

theorem tenPow_le {e f : Int} (h : e ≤ f) : tenPow e ≤ tenPow f :=
  zpow_le_zpow_right₀ (by norm_num) h

theorem le_of_tenPow_lt {e f : Int} (h : tenPow e < tenPow f) : e < f :=
  (zpow_lt_zpow_iff_right₀ (by norm_num)).mp h

/-- The magnitude of a number is the power of ten at its first digit. -/
theorem tenPow_magnitude_le (ha : a.isZero = false) :
    tenPow a.magnitude ≤ |a.toRat| ∧ |a.toRat| < tenPow (a.magnitude + 1) := by
  have hn : 0 < a.mantissa.natAbs := by
    rw [isZero, beq_eq_false_iff_ne] at ha
    exact Int.natAbs_pos.mpr ha
  obtain ⟨l, hl⟩ : ∃ l, (Nat.toDigits 10 a.mantissa.natAbs).length = l + 1 :=
    ⟨_, (Nat.succ_pred_eq_of_pos Nat.length_toDigits_pos).symm⟩
  have hlow : pow10 l ≤ a.mantissa.natAbs := by
    rcases Nat.eq_zero_or_pos l with rfl | hpos
    · exact hn
    · by_contra hlt
      have := (Nat.length_toDigits_le_iff (by decide) hpos).mpr (Nat.not_le.mp hlt)
      omega
  have hhigh : a.mantissa.natAbs < pow10 (l + 1) :=
    (Nat.length_toDigits_le_iff (by decide) (Nat.succ_pos l)).mp hl.le
  have hmagnitude : a.magnitude = l - a.scale := by
    rw [magnitude, hl]
    push_cast
    ring
  have habs : |a.toRat| = (a.mantissa.natAbs : Rat) / (pow10 a.scale : Nat) := by
    rw [toRat_eq_div, abs_div, abs_of_pos (pow10_cast_pos _), Nat.cast_natAbs, Int.cast_abs]
  have hpow (e : Nat) : tenPow (e - a.scale) = (pow10 e : Nat) / (pow10 a.scale : Nat) := by
    rw [Int.sub_eq_add_neg, tenPow_add, tenPow_nat, tenPow_neg, mul_one_div]
  rw [habs, hmagnitude, hpow,
    show (l : Int) - a.scale + 1 = ((l + 1 : Nat) : Int) - a.scale by omega, hpow,
    div_le_div_iff_of_pos_right (pow10_cast_pos _),
    div_lt_div_iff_of_pos_right (pow10_cast_pos _)]
  exact ⟨Nat.cast_le.mpr hlow, Nat.cast_lt.mpr hhigh⟩

/-! ## Digits that are kept -/

theorem isZero_iff_false : a.isZero = false ↔ a.toRat ≠ 0 := by
  rw [← Bool.not_eq_true, isZero_iff]

/-- Digits after the point that go are rounded off, away from zero in a tie. -/
theorem roundedAway_roundAway (a : Decimal) (p : Nat) :
    RoundedAway (tenPow (-p)) a.toRat (a.roundAway (min p maxScale)).toRat := by
  rw [tenPow_neg]
  have hpos := pow10_cast_pos p
  by_cases hcut : min p maxScale < a.scale
  · have hp : min p maxScale = p := by have := a.scale_le; omega
    rw [hp] at hcut ⊢
    refine ⟨Quotient.halfAway a.mantissa (pow10 (a.scale - p)), ?_, ?_⟩
    · rw [mul_one_div]
      unfold roundAway cut
      rw [dif_pos hcut]
      exact toRat_eq_div _
    · rw [div_div_eq_mul_div, div_one, toRat_mul_pow10_of_lt hcut]
      exact Quotient.nearestAway_halfAway _ (pow10_pos _)
  · have hsame : a.roundAway (min p maxScale) = a := by
      unfold roundAway cut
      rw [dif_neg hcut]
    have hwhole := toRat_mul_pow10 (show a.scale ≤ p by omega)
    rw [hsame]
    refine ⟨a.mantissa * pow10 (p - a.scale), ?_, ?_⟩
    · rw [← hwhole, mul_one_div, mul_div_cancel_right₀ _ hpos.ne']
    · rw [div_div_eq_mul_div, div_one, hwhole]
      exact .self _

theorem abs_toRat_le (a : Decimal) : |a.toRat| ≤ maxMantissa := by
  rw [toRat_eq_div, abs_div_le_iff (pow10_pos _)]
  exact a.mantissa_le.trans (Nat.le_mul_of_pos_right _ (pow10_pos _))

/-- A whole number of powers of ten that is nearest to a decimal is in range, as long as the decimal
has no more than fifteen digits before that power. -/
theorem natAbs_mul_pow10_le {t : Int} {k : Nat} (hk : k ≤ 14)
    (hlt : |a.toRat| < (pow10 (k + 15) : Nat))
    (ht : |(t : Rat) - a.toRat / (pow10 k : Nat)| ≤ 1 / 2) :
    (t * pow10 k).natAbs ≤ maxMantissa := by
  have hpos := pow10_cast_pos k
  have hbound : (t.natAbs : Rat) ≤ |a.toRat| / (pow10 k : Nat) + 1 / 2 := by
    have htri := abs_sub_abs_le_abs_sub (t : Rat) (a.toRat / (pow10 k : Nat))
    rw [abs_div, abs_of_pos hpos] at htri
    rw [Nat.cast_natAbs, Int.cast_abs]
    linarith
  rw [Int.natAbs_mul, Int.natAbs_natCast]
  rcases Nat.lt_or_eq_of_le hk with hsmall | rfl
  · have hdigits : |a.toRat| / (pow10 k : Nat) < (pow10 15 : Nat) := by
      rw [div_lt_iff₀ hpos, ← Nat.cast_mul, ← pow10_add, Nat.add_comm]
      exact hlt
    have hone : t.natAbs < pow10 15 + 1 := by
      have : (t.natAbs : Rat) < ((pow10 15 + 1 : Nat) : Rat) := by
        push_cast
        linarith
      exact_mod_cast this
    calc t.natAbs * pow10 k ≤ pow10 15 * pow10 13 :=
          Nat.mul_le_mul (by omega) (Nat.pow_le_pow_right (by decide) (by omega))
      _ ≤ maxMantissa := by decide
  · -- the largest decimal of all loses fourteen digits, and those are below the half
    have hmax := a.abs_toRat_le
    have hwhole : ((2 * (t.natAbs * pow10 14) : Nat) : Rat) ≤
        ((2 * maxMantissa + pow10 14 : Nat) : Rat) := by
      have := mul_le_mul_of_nonneg_right hbound hpos.le
      rw [add_mul, div_mul_cancel₀ _ hpos.ne'] at this
      push_cast
      linarith
    have hwhole := Nat.cast_le.mp hwhole
    rw [show pow10 14 = 100000000000000 from rfl] at hwhole ⊢
    unfold maxMantissa at hwhole ⊢
    omega

/-- Digits before the point that go are rounded off too, to the even neighbour in a tie. The
quotient by their power of ten is exact, and what it is rounded to has to be in range. -/
theorem roundedEven_cut {k : Nat} (hplaces : a.scale + k ≤ maxScale) :
    ∃ unit units, ofInt? (pow10 k) = some unit ∧ a.div? unit = some units ∧
      ∃ q : Int, NearestEven q (a.toRat / (pow10 k : Nat)) ∧
        ((q * pow10 k).natAbs ≤ maxMantissa →
          ∃ b, (units.roundEven 0).mul? unit = some b ∧ b.toRat = q * (pow10 k : Nat)) ∧
        (maxMantissa < (q * pow10 k).natAbs → (units.roundEven 0).mul? unit = none) := by
  have hpos := pow10_cast_pos k
  have hunit : pow10 k ≤ maxMantissa :=
    (Nat.pow_le_pow_right (by decide) (by omega)).trans (show pow10 maxScale ≤ _ by decide)
  let unit : Decimal := ⟨pow10 k, 0, by rwa [Int.natAbs_natCast], by decide⟩
  have hunitRat : unit.toRat = (pow10 k : Nat) := (toRat_of_whole rfl).trans (Int.cast_natCast _)
  let shifted : Decimal := ⟨a.mantissa, a.scale + k, a.mantissa_le, hplaces⟩
  have hshifted : shifted.toRat = a.toRat / unit.toRat := by
    have h1 := pow10_ne_zero a.scale
    rw [hunitRat, toRat_eq_div, toRat_eq_div, show shifted.scale = a.scale + k from rfl,
      show shifted.mantissa = a.mantissa from rfl, pow10_add]
    push_cast
    field_simp
  obtain ⟨units, hunits, hunitsRat⟩ := div?_exact (by rwa [hunitRat]) hshifted
  rw [hshifted, hunitRat] at hunitsRat
  obtain ⟨_, hround, hnear⟩ := units.roundEven_zero
  rw [hunitsRat] at hnear
  have hproduct : (units.roundEven 0).toRat * unit.toRat =
      (((units.roundEven 0).mantissa * pow10 k : Int) : Rat) := by
    rw [hround, hunitRat, Int.cast_mul, Int.cast_natCast]
  refine ⟨unit, units, ofParts?_of_le _ _, hunits, _, hnear, fun hle => ?_, fun hlt => ?_⟩
  · let whole : Decimal := ⟨(units.roundEven 0).mantissa * pow10 k, 0, hle, by decide⟩
    obtain ⟨b, hb, hbRat⟩ := mul?_exact (x := whole) (Nat.zero_le _)
      ((toRat_of_whole rfl).trans hproduct.symm)
    refine ⟨b, hb, ?_⟩
    rw [hbRat, toRat_of_whole rfl]
    exact (Int.cast_mul _ _).trans (by rw [Int.cast_natCast])
  · rw [← Option.not_isSome_iff_eq_none, mul?_isSome_iff, hproduct, fits_int_iff]
    omega

/-- Rounded to the digits that the ledger keeps, a number is in range and a nearest whole number of
units of the last of them. -/
theorem nearest_roundSignificant (ha : a.isZero = false) :
    ∃ b, a.roundSignificant? WireAmount.issuedDigits = some b ∧
      NearestUnits (tenPow (a.magnitude + 1 - WireAmount.issuedDigits)) a.toRat b.toRat := by
  unfold roundSignificant?
  have hdigits : ((WireAmount.issuedDigits : Nat) : Int) = 15 := rfl
  rw [ha, hdigits]
  simp only [Bool.false_eq_true, if_false]
  by_cases hplaces : 0 ≤ 15 - 1 - a.magnitude
  · rw [if_pos hplaces]
    refine ⟨_, rfl, ?_⟩
    have hunit : a.magnitude + 1 - 15 = -((15 - 1 - a.magnitude).toNat : Int) := by omega
    rw [hunit]
    exact (a.roundedAway_roundAway _).nearest (tenPow_pos _)
  · have hlength : (Nat.toDigits 10 a.mantissa.natAbs).length ≤ 29 := by
      rw [Nat.length_toDigits_le_iff (by decide) (by decide)]
      exact Nat.lt_of_le_of_lt a.mantissa_le (by decide)
    obtain ⟨k, hk⟩ : ∃ k : Nat, a.magnitude = k + 14 :=
      ⟨(a.magnitude - 14).toNat, by omega⟩
    have hsize : k + a.scale ≤ 14 := by
      have hm := hk
      unfold magnitude at hm
      omega
    have hlt := (tenPow_magnitude_le ha).2
    rw [show a.magnitude + 1 = ((k + 15 : Nat) : Int) by omega, tenPow_nat] at hlt
    obtain ⟨unit, units, hunit, hunits, q, hq, hfits, _⟩ :=
      roundedEven_cut (a := a) (k := k) (by unfold maxScale; omega)
    obtain ⟨b, hb, hbRat⟩ := hfits (natAbs_mul_pow10_le (by omega) hlt hq.near)
    rw [if_neg hplaces, if_neg (by omega),
      show (-(15 - 1 - a.magnitude)).toNat = k by omega]
    refine ⟨b, ?_, ?_⟩
    · simp only [hunit, hunits, hb, Option.bind_eq_bind, Option.bind_some]
    · rw [show a.magnitude + 1 - 15 = (k : Int) by omega, hbRat, tenPow_nat]
      exact .of_near (pow10_cast_pos k) hq.near

/-! ## Drops -/

theorem toRat_dropsPerUnit : dropsPerUnit.toRat = (pow10 6 : Nat) :=
  (toRat_of_whole rfl).trans (by rfl)

/-- The number of drops in a value is not rounded. -/
theorem toRat_of_mul?_dropsPerUnit (h : a.mul? dropsPerUnit = some b) :
    b.toRat = a.toRat * (pow10 6 : Nat) := by
  have hfits := mul?_isSome_iff.mp (Option.isSome_of_mem h)
  rw [toRat_dropsPerUnit] at hfits
  rcases a.moved_point 6 with ⟨x, hscale, hx⟩ | ⟨n, hn, hlarge⟩
  · rw [← toRat_dropsPerUnit] at hx
    obtain ⟨c, hc, hcx⟩ := mul?_exact (hscale.trans (Nat.le_add_right _ _)) hx
    rw [h] at hc
    cases hc
    rw [hcx, hx, toRat_dropsPerUnit]
  · rw [hn] at hfits
    exact absurd hfits hlarge

theorem reduce_of_whole (h : a.scale = 0) : a.reduce = a := by
  obtain ⟨m, s, hm, hs⟩ := a
  cases h
  rfl

theorem toRat_millionths (h : a.scale = 0) : a.millionths.toRat = a.toRat * tenPow (-6) := by
  rw [millionths, toRat_reduce, toRat_eq_div, toRat_of_whole h,
    show (-6 : Int) = -(6 : Nat) from rfl, tenPow_neg, mul_one_div]

end Decimal

/-! ## Values on the wire -/

namespace Currency

open Decimal (tenPow)

/-- The unit in which a value of a currency stands on the wire: a drop, or the last of the digits
that the ledger keeps of it. -/
def wireUnit (a : Decimal) : Currency → Rat
  | native => tenPow (-6)
  | issued .. => tenPow (a.magnitude + 1 - WireAmount.issuedDigits)

/-- The largest value of a currency that vanishes on the wire. -/
def vanishing : Currency → Rat
  | native => tenPow (-6) / 2
  | issued .. => 0

/-- What a value of a currency comes to on the wire: a nearest whole number of wire units. A value
that is not below zero comes to nothing just if it is one that vanishes. -/
structure OnWire (c : Currency) (a b : Decimal) : Prop where
  nearest : NearestUnits (c.wireUnit a) a.toRat b.toRat
  pos_iff : 0 ≤ a.toRat → (0 < b.toRat ↔ c.vanishing < a.toRat)

variable {a b : Decimal}

theorem onWire_native (h : a.mul? Decimal.dropsPerUnit = some b) :
    native.OnWire a (b.roundEven 0).millionths := by
  obtain ⟨hscale, hround, hnear⟩ := b.roundEven_zero
  have hunit := Decimal.tenPow_pos (-6)
  have hdrops : b.toRat = a.toRat / tenPow (-6) := by
    rw [Decimal.toRat_of_mul?_dropsPerUnit h, show (-6 : Int) = -(6 : Nat) from rfl,
      Decimal.tenPow_neg, div_div_eq_mul_div, div_one]
  rw [hdrops] at hnear
  constructor
  · rw [Decimal.toRat_millionths hscale, hround]
    exact .of_near hunit hnear.near
  · intro _
    rw [Decimal.toRat_millionths hscale, hround, mul_pos_iff_of_pos_right hunit, Int.cast_pos,
      hnear.pos_iff, lt_div_iff₀ hunit, one_div_mul_eq_div]
    rfl

theorem onWire_issued {code issuer : String} (ha : a.isZero = false)
    (hb : NearestUnits (tenPow (a.magnitude + 1 - WireAmount.issuedDigits)) a.toRat b.toRat) :
    (issued code issuer).OnWire a b where
  nearest := hb
  pos_iff := by
    intro hnonneg
    have hpos : 0 < a.toRat := lt_of_le_of_ne hnonneg (Decimal.isZero_iff_false.mp ha).symm
    refine iff_of_true (hb.pos (Decimal.tenPow_pos _) ?_) hpos
    have hfirst := (Decimal.tenPow_magnitude_le ha).1
    rw [abs_of_pos hpos] at hfirst
    refine le_trans ?_ hfirst
    exact zpow_le_zpow_right₀ (by norm_num) (by
      show a.magnitude + 1 - 15 ≤ a.magnitude
      omega)

theorem onWire_issued_of_isZero {code issuer : String} (ha : a.isZero = true)
    (hb : b.toRat = a.toRat) : (issued code issuer).OnWire a b where
  nearest := by
    rw [hb, Decimal.toRat_of_isZero ha]
    refine ⟨⟨0, by simp⟩, ?_⟩
    rw [sub_self, abs_zero]
    exact (half_pos (Decimal.tenPow_pos _)).le
  pos_iff _ := by rw [hb, vanishing]

end Currency

namespace WireAmount

variable {c : Currency} {a : Decimal} {w : WireAmount}

theorem amount_drops (hs : a.scale = 0) :
    (drops a.plainText).amount = .ok ⟨.native, a.millionths⟩ := by
  unfold amount Decimal.plainText
  rw [Decimal.reduce_of_whole hs]
  simp only [Decimal.ofDropsText_text a hs]
  rfl

theorem amount_issued (a : Decimal) (code issuer : String) :
    (issued ⟨code, issuer, a.plainText⟩).amount = .ok ⟨.issued code issuer, a.reduce⟩ := by
  unfold amount Decimal.plainText
  simp only [Decimal.ofIssuedText_text]
  rfl

/-- What a value is written as reads back in its currency, as what the value comes to there. -/
theorem ofValue_reads (h : ofValue c a = .ok w) :
    ∃ b, w.amount = .ok ⟨c, b⟩ ∧ c.OnWire a b := by
  cases c with
  | native =>
    unfold ofValue at h
    cases hdrops : a.product Decimal.dropsPerUnit with
    | error e =>
      rw [hdrops] at h
      cases h
    | ok minor =>
      rw [hdrops] at h
      cases h
      exact ⟨_, amount_drops (minor.roundEven_zero).1,
        Currency.onWire_native (Decimal.product_eq_ok_iff.mp hdrops)⟩
  | issued code issuer =>
    cases h
    refine ⟨_, amount_issued _ code issuer, ?_⟩
    cases hz : a.isZero with
    | true =>
      unfold Decimal.roundSignificant?
      rw [hz, if_pos rfl, Option.getD_some]
      exact Currency.onWire_issued_of_isZero hz (Decimal.toRat_reduce a)
    | false =>
      obtain ⟨b, hb, hnear⟩ := Decimal.nearest_roundSignificant hz
      rw [← Decimal.toRat_reduce b] at hnear
      rw [hb, Option.getD_some]
      exact Currency.onWire_issued hz hnear

end WireAmount

end OfferDesk
