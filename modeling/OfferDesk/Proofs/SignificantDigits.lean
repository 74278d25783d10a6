-- Numbers rounded to significant digits. The first digit is found by moving the point one place at
-- a time, and no such step is rounded. Digits behind the point that go are rounded away from zero
-- in a tie. Digits before the point are not: there a tie goes to the even neighbour, and a power of
-- ten beyond 18 that is to be cut off stops the calculation.
import OfferDesk.Proofs.WireAmounts

namespace OfferDesk

/-! ## Ties -/

/-- A number rounded to a whole number of units, a tie to the even neighbour. -/
def RoundedEven (unit x y : Rat) : Prop := ∃ k : Int, y = k * unit ∧ NearestEven k (x / unit)

/-- A number halfway between two whole numbers of units, the one nearer to zero an even one. -/
def TieToEven (unit x : Rat) : Prop := ∃ j : Nat, j % 2 = 0 ∧ |x| = (j + 1 / 2) * unit

variable {unit x y z : Rat}

theorem RoundedEven.eq_away_iff (hunit : 0 < unit) (hz : RoundedEven unit x z)
    (hy : RoundedAway unit x y) : z = y ↔ ¬ TieToEven unit x := by
  obtain ⟨k, rfl, hk⟩ := hz
  obtain ⟨l, rfl, hl⟩ := hy
  rw [mul_right_cancel_iff_of_pos hunit, Int.cast_inj, hk.eq_away_iff hl, not_iff_not]
  apply exists_congr
  intro j
  rw [abs_div, abs_of_pos hunit, div_eq_iff hunit.ne']

/-- Of the two ways to round, the one to even does not lead farther from zero. -/
theorem RoundedEven.abs_le_away (hunit : 0 < unit) (hz : RoundedEven unit x z)
    (hy : RoundedAway unit x y) : |z| ≤ |y| := by
  obtain ⟨k, rfl, hk⟩ := hz
  obtain ⟨l, rfl, hl⟩ := hy
  rw [abs_mul, abs_mul, mul_le_mul_iff_of_pos_right (abs_pos.mpr hunit.ne'),
    ← cast_natAbs_eq_abs, ← cast_natAbs_eq_abs]
  rcases eq_or_halfway hk.near hl.near with rfl | ⟨htie, htie', _⟩
  · exact le_refl _
  · rw [hl.natAbs_of_halfway htie']
    rcases abs_of_halfway htie with hnear | hfar
    · linarith
    · exact hfar.le

namespace Decimal

variable {a b p q : Decimal} {digits : Nat} {m n : Int}

/-! ## The first digit -/

/-- The number without its sign. -/
def unsigned (a : Decimal) : Decimal :=
  ⟨a.mantissa.natAbs, a.scale, by rw [Int.natAbs_natCast]; exact a.mantissa_le, a.scale_le⟩

def ten : Decimal := .ofWord 10

/-- By how many places the point of a number moves to the left until it stands behind the first
digit: the number is divided by ten while it is at least ten, and multiplied while it is below
one. -/
inductive PointMoves : Decimal → Int → Prop
  | rests {p : Decimal} : one ≤ p → p < ten → PointMoves p 0
  | left {p q : Decimal} {n : Int} : ten ≤ p → p.div? ten = some q → PointMoves q n →
      PointMoves p (n + 1)
  | right {p q : Decimal} {n : Int} : p < one → p.mul? ten = some q → PointMoves q n →
      PointMoves p (n - 1)

theorem toRat_unsigned (a : Decimal) : a.unsigned.toRat = |a.toRat| := by
  rw [toRat_eq_div, toRat_eq_div, abs_div, abs_of_pos (pow10_cast_pos _), ← cast_natAbs_eq_abs]
  rfl

theorem toRat_one : one.toRat = 1 := (toRat_of_whole rfl).trans Int.cast_one

theorem toRat_ten : ten.toRat = 10 := (toRat_of_whole rfl).trans rfl

theorem tenPow_zero : tenPow 0 = 1 := zpow_zero 10

theorem tenPow_one : tenPow 1 = 10 := zpow_one 10

/-- A number of at least ten has a place left for its quotient by ten. -/
theorem div?_ten (h : ten ≤ p) : ∃ q, p.div? ten = some q ∧ q.toRat = p.toRat / 10 := by
  have hscale : p.scale + 1 ≤ maxScale := by
    have hten : 10 * (pow10 p.scale : Int) ≤ p.mantissa := by
      have h : (10 : Int) * pow10 p.scale ≤ p.mantissa * pow10 0 := h
      rwa [show pow10 0 = 1 from rfl, Nat.cast_one, Int.mul_one] at h
    have hle := p.mantissa_le
    have hs := p.scale_le
    by_contra hfull
    have hfull : p.scale = maxScale := by omega
    rw [hfull, show pow10 maxScale = 10000000000000000000000000000 from rfl] at hten
    unfold maxMantissa at hle
    omega
  let x : Decimal := ⟨p.mantissa, p.scale + 1, p.mantissa_le, hscale⟩
  have hx : x.toRat = p.toRat / ten.toRat := by
    have h1 := pow10_ne_zero p.scale
    rw [toRat_ten, toRat_eq_div, toRat_eq_div, show x.scale = p.scale + 1 from rfl,
      show x.mantissa = p.mantissa from rfl, pow10_add, show pow10 1 = 10 from rfl]
    push_cast
    field_simp
  obtain ⟨q, hq, hqRat⟩ := div?_exact (by rw [toRat_ten]; norm_num) hx
  exact ⟨q, hq, by rw [hqRat, hx, toRat_ten]⟩

/-- A number between zero and one has a place to give up for its product with ten. -/
theorem mul?_ten (hpos : 0 < p.toRat) (h : p < one) :
    ∃ q, p.mul? ten = some q ∧ q.toRat = p.toRat * 10 := by
  have hscale : p.scale ≠ 0 := by
    intro hzero
    have hlt : p.toRat < 1 := by rwa [← toRat_one, ← lt_iff]
    rw [toRat_of_whole hzero] at hpos hlt
    have hpos : 0 < p.mantissa := by exact_mod_cast hpos
    have hlt : p.mantissa < 1 := by exact_mod_cast hlt
    omega
  obtain ⟨s, hs⟩ := Nat.exists_eq_succ_of_ne_zero hscale
  let x : Decimal := ⟨p.mantissa, s, p.mantissa_le, by have := p.scale_le; omega⟩
  have hx : x.toRat = p.toRat * ten.toRat := by
    have h1 := pow10_ne_zero s
    rw [toRat_ten, toRat_eq_div, toRat_eq_div, show x.scale = s from rfl,
      show x.mantissa = p.mantissa from rfl, hs, Nat.succ_eq_add_one, pow10_add,
      show pow10 1 = 10 from rfl]
    push_cast
    field_simp
  obtain ⟨q, hq, hqRat⟩ := mul?_exact (x := x) (by show s ≤ p.scale + 0; omega) hx
  exact ⟨q, hq, by rw [hqRat, hx, toRat_ten]⟩

/-- The point comes to rest, and the power of ten at the first digit tells by how many places it
moved. -/
theorem pointMoves_of_first (n : Int) :
    ∀ p : Decimal, tenPow n ≤ p.toRat → p.toRat < tenPow (n + 1) → PointMoves p n := by
  induction n using Int.induction_on with
  | zero =>
    intro p hlow hhigh
    rw [tenPow_zero] at hlow
    rw [zero_add, tenPow_one] at hhigh
    exact .rests (le_iff.mpr (by rwa [toRat_one])) (lt_iff.mpr (by rwa [toRat_ten]))
  | succ i ih =>
    intro p hlow hhigh
    rw [tenPow_add _ 1, tenPow_one] at hlow hhigh
    have hfirst : (1 : Rat) ≤ tenPow i := by
      rw [tenPow_nat]
      exact_mod_cast pow10_pos i
    have hten : ten ≤ p := le_iff.mpr (by rw [toRat_ten]; linarith)
    obtain ⟨q, hq, hqRat⟩ := div?_ten hten
    refine .left hten hq (ih q ?_ ?_)
    · rw [hqRat, le_div_iff₀ (by norm_num)]
      exact hlow
    · rw [hqRat, div_lt_iff₀ (by norm_num)]
      exact hhigh
  | pred i ih =>
    intro p hlow hhigh
    have hpos : 0 < p.toRat := lt_of_lt_of_le (tenPow_pos _) hlow
    have hup : tenPow (-i - 1) * 10 = tenPow (-i) := by
      rw [← tenPow_one, ← tenPow_add, sub_add_cancel]
    rw [sub_add_cancel] at hhigh
    have hone : p < one := by
      rw [lt_iff, toRat_one]
      refine lt_of_lt_of_le hhigh ?_
      rw [tenPow_neg]
      exact div_le_one_of_le₀ (by exact_mod_cast pow10_pos i) (pow10_cast_pos i).le
    obtain ⟨q, hq, hqRat⟩ := mul?_ten hpos hone
    refine .right hone hq (ih q ?_ ?_)
    · rw [hqRat, ← hup]
      linarith
    · rw [hqRat, tenPow_add, tenPow_one]
      linarith

/-- Wherever the point comes to rest, it stands behind the first digit. -/
theorem PointMoves.first (h : PointMoves p n) (hpos : 0 < p.toRat) :
    tenPow n ≤ p.toRat ∧ p.toRat < tenPow (n + 1) := by
  induction h with
  | rests hone hten =>
    rw [le_iff, toRat_one] at hone
    rw [lt_iff, toRat_ten] at hten
    rw [zero_add, tenPow_zero, tenPow_one]
    exact ⟨hone, hten⟩
  | left hten hq _ ih =>
    obtain ⟨q, hq', hqRat⟩ := div?_ten hten
    cases hq.symm.trans hq'
    have hup (e : Int) : tenPow (e + 1) = tenPow e * 10 := by rw [tenPow_add, tenPow_one]
    rw [hqRat, le_div_iff₀ (by norm_num), div_lt_iff₀ (by norm_num), ← hup, ← hup] at ih
    exact ih (by positivity)
  | right hone hq _ ih =>
    obtain ⟨q, hq', hqRat⟩ := mul?_ten hpos hone
    cases hq.symm.trans hq'
    have hup (e : Int) : tenPow e = tenPow (e - 1) * 10 := by
      rw [← tenPow_one, ← tenPow_add, sub_add_cancel]
    have ih := ih (by rw [hqRat]; linarith)
    rw [hqRat, add_comm, hup, hup (1 + _), add_sub_cancel_left,
      mul_le_mul_iff_of_pos_right (by norm_num), mul_lt_mul_iff_of_pos_right (by norm_num)] at ih
    rw [sub_add_cancel]
    exact ih

/-- Just one power of ten is that of the first digit. -/
theorem first_unique {x : Rat} (hm : tenPow m ≤ x ∧ x < tenPow (m + 1))
    (hn : tenPow n ≤ x ∧ x < tenPow (n + 1)) : m = n := by
  have h1 := le_of_tenPow_lt (lt_of_le_of_lt hm.1 hn.2)
  have h2 := le_of_tenPow_lt (lt_of_le_of_lt hn.1 hm.2)
  omega

/-- The point of a number comes to rest after as many places as its magnitude tells. -/
theorem pointMoves_iff (ha : a.isZero = false) : PointMoves a.unsigned n ↔ n = a.magnitude := by
  have hfirst := tenPow_magnitude_le ha
  rw [← toRat_unsigned] at hfirst
  constructor
  · intro h
    have hpos : 0 < a.unsigned.toRat := lt_of_lt_of_le (tenPow_pos _) hfirst.1
    exact first_unique (h.first hpos) hfirst
  · rintro rfl
    exact pointMoves_of_first _ _ hfirst.1 hfirst.2

/-! ## Digits that a number has -/

/-- A number with no more than so many significant digits. -/
def HasDigits (digits : Nat) (x : Rat) : Prop :=
  ∃ m e : Int, m.natAbs < pow10 digits ∧ x = m * tenPow e

theorem HasDigits.neg {x : Rat} (h : HasDigits digits x) : HasDigits digits (-x) := by
  obtain ⟨m, e, hm, rfl⟩ := h
  exact ⟨-m, e, by rwa [Int.natAbs_neg], by rw [Int.cast_neg, neg_mul]⟩

/-- So many digits from the first one reach down to the last. -/
theorem HasDigits.whole_units {x : Rat} {e : Int} (h : HasDigits digits x) (hx : tenPow e ≤ |x|) :
    ∃ k : Int, x = k * tenPow (e + 1 - digits) := by
  obtain ⟨m, f, hm, rfl⟩ := h
  rcases Int.lt_or_le f (e + 1 - digits) with hlow | hle
  · have hsmall : |(m : Rat) * tenPow f| < tenPow (digits + f) := by
      rw [abs_mul, abs_of_pos (tenPow_pos f), tenPow_add, tenPow_nat, ← cast_natAbs_eq_abs]
      exact mul_lt_mul_of_pos_right (Nat.cast_lt.mpr hm) (tenPow_pos f)
    have hlt := le_of_tenPow_lt (lt_of_le_of_lt hx hsmall)
    omega
  · obtain ⟨s, hs⟩ : ∃ s : Nat, f = s + (e + 1 - digits) :=
      ⟨(f - (e + 1 - digits)).toNat, by omega⟩
    refine ⟨m * pow10 s, ?_⟩
    rw [hs, tenPow_add, tenPow_nat]
    push_cast
    ring

/-- A nearest number of units of the last of so many digits has no more digits. -/
theorem hasDigits_of_nearest {x y : Rat} {e : Int} (hdigits : 0 < digits)
    (hx : |x| < tenPow (e + 1)) (h : NearestUnits (tenPow (e + 1 - digits)) x y) :
    HasDigits digits y := by
  obtain ⟨k, rfl⟩ := h.whole
  have hunit := tenPow_pos (e + 1 - digits)
  have hall : tenPow (e + 1) = (pow10 digits : Nat) * tenPow (e + 1 - digits) := by
    rw [← tenPow_nat, ← tenPow_add]
    congr 1
    omega
  have hk : k.natAbs ≤ pow10 digits := by
    have hnear := (abs_sub_abs_le_abs_sub _ _).trans h.near
    rw [abs_mul, abs_of_pos hunit, ← cast_natAbs_eq_abs] at hnear
    have hlt : ((k.natAbs : Nat) : Rat) < ((pow10 digits + 1 : Nat) : Rat) := by
      refine lt_of_mul_lt_mul_right ?_ hunit.le
      push_cast
      linarith
    have hlt := Nat.cast_lt.mp hlt
    omega
  rcases Nat.lt_or_eq_of_le hk with hlt | heq
  · exact ⟨k, _, hlt, rfl⟩
  · -- the last digit carried all the way up, and one digit is left
    refine ⟨k.sign, e + 1, ?_, ?_⟩
    · have hone : 10 ≤ pow10 digits := Nat.pow_le_pow_right (n := 10) (by decide) hdigits
      rcases Int.sign_trichotomy k with h | h | h <;> omega
    · have hsign : (k : Rat) = k.sign * (k.natAbs : Nat) := by
        rw [← Int.cast_natCast, ← Int.cast_mul, Int.sign_mul_natAbs]
      rw [hall, ← mul_assoc, ← heq, ← hsign]

/-! ## Rounding to digits -/

/-- The unit of the last of so many digits of a number. -/
def lastUnit (a : Decimal) (digits : Nat) : Rat := tenPow (a.magnitude + 1 - digits)

theorem lastUnit_pos (a : Decimal) (digits : Nat) : 0 < a.lastUnit digits := tenPow_pos _

/-- With the point behind the last digit or before it, the others are rounded away. -/
theorem roundSignificant?_behind (ha : a.isZero = false) (h : a.magnitude < digits) :
    ∃ b, a.roundSignificant? digits = some b ∧
      RoundedAway (a.lastUnit digits) a.toRat b.toRat := by
  obtain ⟨places, hplaces⟩ : ∃ places : Nat, (digits : Int) - 1 - a.magnitude = places :=
    ⟨((digits : Int) - 1 - a.magnitude).toNat, by omega⟩
  refine ⟨a.roundAway (min places maxScale), ?_, ?_⟩
  · unfold roundSignificant?
    simp only [ha, Bool.false_eq_true, if_false, hplaces, Int.natCast_nonneg, if_true,
      Int.toNat_natCast]
  · rw [lastUnit, show a.magnitude + 1 - (digits : Int) = -places by omega]
    exact a.roundedAway_roundAway places

/-- With the point behind digits that go, they are rounded to even, as long as a power of ten up to
18 takes them. -/
theorem roundSignificant?_before (ha : a.isZero = false) (hdigits : 0 < digits)
    (hlow : digits ≤ a.magnitude) (hhigh : a.magnitude < digits + 18) :
    ∃ z, RoundedEven (a.lastUnit digits) a.toRat z ∧
      ((∃ b, a.roundSignificant? digits = some b ∧ b.toRat = z) ∨
        a.roundSignificant? digits = none ∧ ¬ Fits z) := by
  obtain ⟨k, hk⟩ : ∃ k : Nat, a.magnitude + 1 - digits = k :=
    ⟨(a.magnitude + 1 - digits).toNat, by omega⟩
  have hsize : a.scale + k ≤ maxScale := by
    have hlength : (Nat.toDigits 10 a.mantissa.natAbs).length ≤ 29 := by
      rw [Nat.length_toDigits_le_iff (by decide) (by decide)]
      exact Nat.lt_of_le_of_lt a.mantissa_le (by decide)
    unfold magnitude at hk
    unfold maxScale
    omega
  obtain ⟨unit, units, hunit, hunits, j, hj, hfits, hlarge⟩ := roundedEven_cut hsize
  have hround : a.roundSignificant? digits = (units.roundEven 0).mul? unit := by
    unfold roundSignificant?
    simp only [ha, Bool.false_eq_true, if_false]
    rw [if_neg (by omega), if_neg (by omega),
      show (-((digits : Int) - 1 - a.magnitude)).toNat = k by omega]
    simp only [hunit, hunits, Option.bind_eq_bind, Option.bind_some]
  have hlast : a.lastUnit digits = (pow10 k : Nat) := by rw [lastUnit, hk, tenPow_nat]
  refine ⟨j * (pow10 k : Nat), ⟨j, by rw [hlast], by rw [hlast]; exact hj⟩, ?_⟩
  rw [hround]
  rcases Nat.lt_or_ge maxMantissa (j * pow10 k).natAbs with hlt | hle
  · right
    refine ⟨hlarge hlt, ?_⟩
    rw [← Int.cast_natCast, ← Int.cast_mul, fits_int_iff]
    omega
  · left
    exact hfits hle

theorem roundSignificant?_beyond (ha : a.isZero = false) (h : digits + 18 ≤ a.magnitude) :
    a.roundSignificant? digits = none := by
  unfold roundSignificant?
  simp only [ha, Bool.false_eq_true, if_false]
  rw [if_neg (by omega), if_pos (by omega)]

theorem magnitude_of_isZero (ha : a.isZero = true) : a.magnitude ≤ 0 := by
  have hm : a.mantissa = 0 := by simpa [isZero] using ha
  unfold magnitude
  rw [hm, show (Nat.toDigits 10 (Int.natAbs 0)).length = 1 from rfl]
  omega

/-- A number rounded to so many significant digits, a tie away from zero. -/
def RoundedDigits (digits : Nat) (x y : Rat) : Prop :=
  x = 0 ∧ y = 0 ∨ ∃ e : Int, (tenPow e ≤ |x| ∧ |x| < tenPow (e + 1)) ∧
    RoundedAway (tenPow (e + 1 - digits)) x y

theorem RoundedDigits.away {y : Rat} (h : RoundedDigits digits a.toRat y) (ha : a.isZero = false) :
    RoundedAway (a.lastUnit digits) a.toRat y := by
  rcases h with ⟨hzero, _⟩ | ⟨e, he, hround⟩
  · exact absurd hzero (isZero_iff_false.mp ha)
  · rwa [lastUnit, first_unique (tenPow_magnitude_le ha) he]

/-- The first digit of a number is found without rounding. Where the form with ties away from zero
is a decimal, the number is rounded to it, unless digits before the point go: these must be worth no
more than a power of ten up to 18, and not just a half behind an even digit. Such a half is dropped,
and beyond that power there is no result. -/
theorem digits_round_away_iff (a : Decimal) (hdigits : 0 < digits) {y : Rat}
    (hy : RoundedDigits digits a.toRat y) (hfits : ∃ d : Decimal, d.toRat = y) :
    (a.isZero = false → ∀ n, PointMoves a.unsigned n ↔ n = a.magnitude) ∧
    ((∃ b, a.roundSignificant? digits = some b ∧ b.toRat = y) ↔
      a.magnitude < digits ∨
        a.magnitude < digits + 18 ∧ ¬ TieToEven (a.lastUnit digits) a.toRat) ∧
    (digits ≤ a.magnitude → a.magnitude < digits + 18 →
      ∃ b, a.roundSignificant? digits = some b ∧
        RoundedEven (a.lastUnit digits) a.toRat b.toRat) ∧
    (digits + 18 ≤ a.magnitude → a.roundSignificant? digits = none) := by
  cases hz : a.isZero with
  | true =>
    have hsmall := magnitude_of_isZero hz
    have hzero := toRat_of_isZero hz
    have hsame : a.roundSignificant? digits = some a := by
      unfold roundSignificant?
      rw [hz, if_pos rfl]
    have hy0 : y = 0 := by
      rcases hy with ⟨_, h⟩ | ⟨e, he, _⟩
      · exact h
      · rw [hzero, abs_zero] at he
        exact absurd he.1 (not_le.mpr (tenPow_pos e))
    refine ⟨fun h => absurd h (by simp), ?_, fun h => by omega, fun h => by omega⟩
    exact iff_of_true ⟨a, hsame, by rw [hzero, hy0]⟩ (.inl (by omega))
  | false =>
    have haway := hy.away hz
    have hbefore : digits ≤ a.magnitude → a.magnitude < digits + 18 →
        ∃ b, a.roundSignificant? digits = some b ∧
          RoundedEven (a.lastUnit digits) a.toRat b.toRat := by
      intro hlow hhigh
      obtain ⟨z, hzr, ⟨b, hb, rfl⟩ | ⟨_, hnone⟩⟩ := roundSignificant?_before hz hdigits hlow hhigh
      · exact ⟨b, hb, hzr⟩
      · -- the form with ties to even is no farther from zero, so it is in range if the other one is
        obtain ⟨d, rfl⟩ := hfits
        have hle := hzr.abs_le_away (a.lastUnit_pos digits) haway
        exact absurd (lt_of_le_of_lt hle d.toRat_fits) hnone
    refine ⟨fun _ n => pointMoves_iff hz, ?_, hbefore, roundSignificant?_beyond hz⟩
    rcases Int.lt_or_le a.magnitude digits with hbehind | hlow
    · obtain ⟨b, hb, hround⟩ := roundSignificant?_behind hz hbehind
      exact iff_of_true ⟨b, hb, hround.eq haway⟩ (.inl hbehind)
    · rcases Int.lt_or_le a.magnitude (digits + 18) with hhigh | hbeyond
      · obtain ⟨b, hb, hround⟩ := hbefore hlow hhigh
        rw [← hround.eq_away_iff (a.lastUnit_pos digits) haway]
        constructor
        · rintro ⟨c, hc, hcy⟩
          cases hb.symm.trans hc
          exact .inr ⟨hhigh, hcy⟩
        · rintro (h | ⟨_, h⟩)
          · omega
          · exact ⟨b, hb, h⟩
      · rw [roundSignificant?_beyond hz hbeyond]
        refine iff_of_false ?_ ?_
        · rintro ⟨b, hb, _⟩
          cases hb
        · omega

/-! Of two ties before the point the one behind an odd digit is rounded away from zero. The one
behind an even digit is not, and of twenty digits before the point the first alone cannot be kept.
-/

theorem a_tie_behind_an_odd_digit :
    RoundedDigits 3 (ofWord 1275).toRat 1280 ∧ (∃ d : Decimal, d.toRat = 1280) ∧
      ∃ b, (ofWord 1275).roundSignificant? 3 = some b ∧ b.toRat = 1280 := by
  have hvalue : (ofWord 1275).toRat = 1275 := (toRat_of_whole rfl).trans rfl
  have hform : ∃ d : Decimal, d.toRat = 1280 := ⟨ofWord 1280, (toRat_of_whole rfl).trans rfl⟩
  have hrounded : RoundedDigits 3 (ofWord 1275).toRat 1280 := by
    rw [hvalue]
    refine .inr ⟨3, ⟨by norm_num [tenPow], by norm_num [tenPow]⟩, 128, by norm_num [tenPow], ?_⟩
    exact ⟨by norm_num [tenPow], fun _ => by norm_num [tenPow]⟩
  have hodd : ¬ TieToEven ((ofWord 1275).lastUnit 3) (ofWord 1275).toRat := by
    rintro ⟨j, heven, hj⟩
    rw [hvalue, lastUnit, show (ofWord 1275).magnitude = 3 by decide] at hj
    norm_num [tenPow] at hj
    have hj : j = 127 := by
      have : (j : Rat) = 127 := by linarith
      exact_mod_cast this
    omega
  obtain ⟨_, hiff, _, _⟩ := digits_round_away_iff (ofWord 1275) (by decide) hrounded hform
  exact ⟨hrounded, hform, hiff.mpr (.inr ⟨by decide, hodd⟩)⟩

theorem a_tie_behind_an_even_digit :
    RoundedDigits 2 (ofWord 125).toRat (ofWord 130).toRat ∧
      (ofWord 125).roundSignificant? 2 = some (ofWord 120) ∧
      RoundedDigits 1 (ofWord 10000000000000000000).toRat (ofWord 10000000000000000000).toRat ∧
      (ofWord 10000000000000000000).roundSignificant? 1 = none := by
  have hvalue : (ofWord 125).toRat = 125 := (toRat_of_whole rfl).trans rfl
  have hform : (ofWord 130).toRat = 130 := (toRat_of_whole rfl).trans rfl
  have hlong : (ofWord 10000000000000000000).toRat = 10000000000000000000 :=
    (toRat_of_whole rfl).trans rfl
  rw [hvalue, hform, hlong]
  refine ⟨.inr ⟨2, ⟨by norm_num [tenPow], by norm_num [tenPow]⟩, 13, by norm_num [tenPow], ?_⟩,
    by decide, .inr ⟨19, ⟨by norm_num [tenPow], by norm_num [tenPow]⟩, 1, by norm_num [tenPow], ?_⟩,
    by decide⟩
  · exact ⟨by norm_num [tenPow], fun _ => by norm_num [tenPow]⟩
  · exact ⟨by norm_num [tenPow], fun h => by norm_num [tenPow] at h⟩

end Decimal

end OfferDesk
