-- What products and quotients round to. A result is the whole number of last places nearest to the
-- exact one, unless that is so large that places had to go. So a result that is not below zero
-- vanishes just when the exact one is at most half a last place, and a result that does not vanish
-- is off by no more than a factor of two.
import Mathlib.Tactic.NormNum
import Mathlib.Tactic.Ring
import OfferDesk.Amount
import OfferDesk.Proofs.DecimalRange

namespace OfferDesk

theorem cast_pow10 (n : Nat) : ((pow10 n : Nat) : Rat) = 10 ^ n := by
  show ((10 ^ n : Nat) : Rat) = 10 ^ n
  push_cast
  rfl

/-! ## Nearest whole numbers -/

/-- The whole number nearest to a number, the even one of two that are equally near. -/
structure NearestEven (k : Int) (x : Rat) : Prop where
  near : |(k : Rat) - x| ≤ 1 / 2
  even : |(k : Rat) - x| = 1 / 2 → k % 2 = 0

namespace NearestEven

variable {k t : Int} {x : Rat}

theorem self (k : Int) : NearestEven k k where
  near := by simp
  even := by
    intro h
    rw [sub_self, abs_zero] at h
    norm_num at h

/-- A nearest whole number lies above an even one just if the number lies more than half a unit
above it. -/
theorem lt_iff (h : NearestEven k x) (ht : t % 2 = 0) : t < k ↔ (t : Rat) + 1 / 2 < x := by
  obtain ⟨hlow, hhigh⟩ := abs_le.mp h.near
  constructor
  · intro hlt
    have hstep : (t : Rat) + 1 ≤ k := by exact_mod_cast hlt
    by_contra hle
    have htie : |(k : Rat) - x| = 1 / 2 := by
      rw [abs_of_nonneg (by linarith)]
      linarith
    have hnext : k = t + 1 := by
      have : (k : Rat) ≤ t + 1 := by linarith
      have : k ≤ t + 1 := by exact_mod_cast this
      omega
    have := h.even htie
    omega
  · intro hlt
    have : (t : Rat) < k := by linarith
    exact_mod_cast this

theorem pos_iff (h : NearestEven k x) : 0 < k ↔ 1 / 2 < x := by
  simpa using h.lt_iff (t := 0) rfl

theorem eq_of_int {j : Int} (h : NearestEven k j) : k = j := by
  obtain ⟨hlow, hhigh⟩ := abs_le.mp h.near
  have hup : (k : Rat) < j + 1 := by linarith
  have hdown : (j : Rat) < k + 1 := by linarith
  have hup : k < j + 1 := by exact_mod_cast hup
  have hdown : j < k + 1 := by exact_mod_cast hdown
  omega

end NearestEven

/-! ## Ties -/

section Halfway

variable {k l : Int} {x : Rat}

theorem cast_natAbs_eq_abs (k : Int) : ((k.natAbs : Nat) : Rat) = |(k : Rat)| := by
  rw [Nat.cast_natAbs, Int.cast_abs]

/-- Two whole numbers nearest to one number are the same, or it lies halfway between them. -/
theorem eq_or_halfway (hk : |(k : Rat) - x| ≤ 1 / 2) (hl : |(l : Rat) - x| ≤ 1 / 2) :
    k = l ∨ |(k : Rat) - x| = 1 / 2 ∧ |(l : Rat) - x| = 1 / 2 ∧ (k = l + 1 ∨ l = k + 1) := by
  obtain ⟨hk1, hk2⟩ := abs_le.mp hk
  obtain ⟨hl1, hl2⟩ := abs_le.mp hl
  have hclose (i j : Int) (h : (i : Rat) ≤ j + 1) : i ≤ j + 1 := by exact_mod_cast h
  have hup := hclose k l (by linarith)
  have hdown := hclose l k (by linarith)
  rcases lt_trichotomy k l with h | h | h
  · obtain rfl : l = k + 1 := by omega
    push_cast at hl1 hl2
    have hx : x = k + 1 / 2 := by linarith
    refine Or.inr ⟨?_, ?_, Or.inr rfl⟩
    · rw [hx, sub_add_cancel_left, abs_neg]
      norm_num
    · rw [hx, Int.cast_add, Int.cast_one, add_sub_add_left_eq_sub]
      norm_num
  · exact Or.inl h
  · obtain rfl : k = l + 1 := by omega
    push_cast at hk1 hk2
    have hx : x = l + 1 / 2 := by linarith
    refine Or.inr ⟨?_, ?_, Or.inl rfl⟩
    · rw [hx, Int.cast_add, Int.cast_one, add_sub_add_left_eq_sub]
      norm_num
    · rw [hx, sub_add_cancel_left, abs_neg]
      norm_num

/-- A whole number half a unit away is half a unit nearer to zero or half a unit farther from it. -/
theorem abs_of_halfway (h : |(k : Rat) - x| = 1 / 2) :
    |x| = (k.natAbs : Nat) + 1 / 2 ∨ ((k.natAbs : Nat) : Rat) = |x| + 1 / 2 := by
  rw [cast_natAbs_eq_abs]
  have hside : x = k - 1 / 2 ∨ x = k + 1 / 2 := by
    rcases abs_choice ((k : Rat) - x) with hx | hx
    · left
      linarith
    · right
      linarith
  rcases lt_trichotomy k 0 with hneg | rfl | hpos
  · have hk : (k : Rat) + 1 ≤ 0 := by exact_mod_cast hneg
    rw [abs_of_nonpos (by linarith : (k : Rat) ≤ 0)]
    rcases hside with rfl | rfl
    · left
      rw [abs_of_nonpos (by linarith)]
      ring
    · right
      rw [abs_of_nonpos (by linarith)]
      ring
  · left
    rcases hside with rfl | rfl
    · norm_num
    · norm_num
  · have hk : (1 : Rat) ≤ k := by exact_mod_cast hpos
    rw [abs_of_nonneg (by linarith : (0 : Rat) ≤ k)]
    rcases hside with rfl | rfl
    · right
      rw [abs_of_nonneg (by linarith)]
      ring
    · left
      rw [abs_of_nonneg (by linarith)]

/-- A whole number that is nearest to a tie is half a unit away from it. -/
theorem halfway_of_abs {j : Nat} (hk : |(k : Rat) - x| ≤ 1 / 2) (hj : |x| = j + 1 / 2) :
    |(k : Rat) - x| = 1 / 2 ∧ (k.natAbs = j ∨ k.natAbs = j + 1) := by
  have hdist := abs_abs_sub_abs_le (k : Rat) x
  obtain ⟨hlow, hhigh⟩ := abs_le.mp (hdist.trans hk)
  rw [← cast_natAbs_eq_abs, hj] at hlow hhigh hdist
  have hle : j ≤ k.natAbs := by
    have : (j : Rat) ≤ (k.natAbs : Nat) := by linarith
    exact_mod_cast this
  have hge : k.natAbs ≤ j + 1 := by
    have : ((k.natAbs : Nat) : Rat) ≤ (j : Rat) + 1 := by linarith
    exact_mod_cast this
  have hcases : k.natAbs = j ∨ k.natAbs = j + 1 := by omega
  refine ⟨le_antisymm hk (le_trans ?_ hdist), hcases⟩
  rcases hcases with h | h
  · rw [h, sub_add_cancel_left, abs_neg]
    norm_num
  · rw [h, Nat.cast_add, Nat.cast_one, add_sub_add_left_eq_sub]
    norm_num

end Halfway

/-- The whole number nearest to a number, the one farther from zero of two that are equally near. -/
structure NearestAway (k : Int) (x : Rat) : Prop where
  near : |(k : Rat) - x| ≤ 1 / 2
  away : |(k : Rat) - x| = 1 / 2 → |x| < |(k : Rat)|

namespace NearestAway

variable {k l : Int} {x : Rat}

theorem self (k : Int) : NearestAway k k where
  near := by simp
  away := by
    intro h
    rw [sub_self, abs_zero] at h
    norm_num at h

theorem neg (hk : NearestAway k x) : NearestAway (-k) (-x) where
  near := by
    rw [Int.cast_neg, ← neg_sub', abs_neg]
    exact hk.near
  away := by
    rw [Int.cast_neg, ← neg_sub', abs_neg, abs_neg, abs_neg]
    exact hk.away

theorem natAbs_of_halfway (hk : NearestAway k x) (h : |(k : Rat) - x| = 1 / 2) :
    ((k.natAbs : Nat) : Rat) = |x| + 1 / 2 := by
  refine (abs_of_halfway h).resolve_left fun hnear => ?_
  have haway := hk.away h
  rw [← cast_natAbs_eq_abs] at haway
  linarith

theorem eq (hk : NearestAway k x) (hl : NearestAway l x) : k = l := by
  rcases eq_or_halfway hk.near hl.near with h | ⟨htie, htie', hnext⟩
  · exact h
  · have hsame : ((k.natAbs : Nat) : Rat) = (l.natAbs : Nat) :=
      (hk.natAbs_of_halfway htie).trans (hl.natAbs_of_halfway htie').symm
    have hsame := Nat.cast_inj.mp hsame
    omega

end NearestAway

/-- The two ways to round agree but for ties between an even number and one farther from zero. -/
theorem NearestEven.eq_away_iff {k l : Int} {x : Rat} (hk : NearestEven k x)
    (hl : NearestAway l x) : k = l ↔ ¬ ∃ j : Nat, j % 2 = 0 ∧ |x| = j + 1 / 2 := by
  constructor
  · rintro rfl ⟨j, heven, hj⟩
    obtain ⟨htie, hcases⟩ := halfway_of_abs hk.near hj
    have hfar := hl.natAbs_of_halfway htie
    have hnear : k.natAbs = j := by
      have := hk.even htie
      omega
    rw [hnear] at hfar
    linarith
  · intro hties
    rcases eq_or_halfway hk.near hl.near with h | ⟨htie, htie', hnext⟩
    · exact h
    · have heven := hk.even htie
      rcases abs_of_halfway htie with hnear | hfar
      · exact absurd ⟨k.natAbs, by omega, hnear⟩ hties
      · have hsame := Nat.cast_inj.mp (hfar.trans (hl.natAbs_of_halfway htie').symm)
        omega

namespace Quotient

variable {n : Int} {d : Nat}

theorem abs_sub_div_eq (k n : Int) (hd : 0 < d) :
    |(k : Rat) - n / d| = ((k * d - n).natAbs : Rat) / d := by
  have hd' : (0 : Rat) < d := Nat.cast_pos.mpr hd
  have hsame : (k : Rat) - n / d = ((k * d - n : Int) : Rat) / d := by
    push_cast
    field_simp
  rw [hsame, abs_div, abs_of_pos hd', Nat.cast_natAbs, Int.cast_abs]

theorem abs_sub_div_le_half {k : Int} (hd : 0 < d) (h : 2 * (k * d - n).natAbs ≤ d) :
    |(k : Rat) - n / d| ≤ 1 / 2 := by
  have hd' : (0 : Rat) < d := Nat.cast_pos.mpr hd
  rw [abs_sub_div_eq k n hd, div_le_iff₀ hd']
  have hnear : ((2 * (k * d - n).natAbs : Nat) : Rat) ≤ (d : Nat) := Nat.cast_le.mpr h
  push_cast at hnear ⊢
  linarith

theorem nearestEven_halfEven (n : Int) (hd : 0 < d) :
    NearestEven (halfEven n d) ((n : Rat) / d) := by
  have hd' : (0 : Rat) < d := Nat.cast_pos.mpr hd
  refine ⟨abs_sub_div_le_half hd (halfEven_near n hd), fun htie => ?_⟩
  rw [abs_sub_div_eq _ n hd, div_eq_iff hd'.ne'] at htie
  have hhalf : 2 * (halfEven n d * d - n).natAbs = d := by
    have : ((2 * (halfEven n d * d - n).natAbs : Nat) : Rat) = (d : Nat) := by
      push_cast at htie ⊢
      linarith
    exact_mod_cast this
  apply halfEven_even_of_tie
  rcases Int.natAbs_eq (halfEven n d * d - n) with h | h
  · refine tie_of_odd_halves (k := 2 * halfEven n d - 1) hd (by omega) ?_
    rw [Int.sub_mul, Int.mul_assoc]
    omega
  · refine tie_of_odd_halves (k := 2 * halfEven n d + 1) hd (by omega) ?_
    rw [Int.add_mul, Int.mul_assoc]
    omega

theorem nearestAway_halfAway (n : Int) (hd : 0 < d) :
    NearestAway (halfAway n d) ((n : Rat) / d) := by
  have hd' : (0 : Rat) < d := Nat.cast_pos.mpr hd
  refine ⟨abs_sub_div_le_half hd (halfAway_near n hd), fun htie => ?_⟩
  rw [abs_sub_div_eq _ n hd, div_eq_iff hd'.ne'] at htie
  have hhalf : 2 * (halfAway n d * d - n).natAbs = d := by
    have : ((2 * (halfAway n d * d - n).natAbs : Nat) : Rat) = (d : Nat) := by
      push_cast at htie ⊢
      linarith
    exact_mod_cast this
  have hfarther : n.natAbs < (halfAway n d * d).natAbs := by
    have hdiv := Int.mul_ediv_add_emod n d
    have hr := Int.emod_nonneg n (b := (d : Int)) (by omega)
    have hlt := Int.emod_lt_of_pos n (b := (d : Int)) (by omega)
    have hfloor : n / (d : Int) * d = n - n % (d : Int) := by
      rw [Int.mul_comm]
      omega
    have hnext : (n / (d : Int) + 1) * d = n - n % (d : Int) + d := by
      rw [Int.add_mul, Int.one_mul, hfloor]
    revert hhalf
    unfold halfAway
    dsimp only
    split
    · rw [hfloor]
      omega
    split
    · rw [hnext]
      omega
    split
    · rw [hfloor]
      omega
    · rw [hnext]
      omega
  have hcast : ((n.natAbs : Nat) : Rat) < ((halfAway n d * d).natAbs : Nat) :=
    Nat.cast_lt.mpr hfarther
  rw [Nat.cast_natAbs, Nat.cast_natAbs, Int.cast_abs, Int.cast_abs] at hcast
  push_cast at hcast
  rw [abs_div, div_lt_iff₀ (abs_pos.mpr hd'.ne'), ← abs_mul]
  exact hcast

theorem halfEven_exact (k : Int) (hd : 0 < d) : halfEven (k * d) d = k := by
  have h := nearestEven_halfEven (k * d) hd
  have hd' : (d : Rat) ≠ 0 := Nat.cast_ne_zero.mpr hd.ne'
  rw [Int.cast_mul, Int.cast_natCast, mul_div_cancel_right₀ _ hd'] at h
  exact h.eq_of_int

/-- A quotient that is at most a whole number is rounded to no more. -/
theorem halfEven_le {k : Int} (hd : 0 < d) (h : n ≤ k * d) : halfEven n d ≤ k := by
  have hnear := halfEven_near n hd
  by_contra hgt
  have hprod : (k + 1) * d ≤ halfEven n d * d :=
    Int.mul_le_mul_of_nonneg_right (by omega) (by omega)
  rw [Int.add_mul, Int.one_mul] at hprod
  omega

end Quotient

namespace Decimal

variable {a b c : Decimal} {n : Int} {d : Nat}

/-! ## Values -/

theorem pow10_ne_zero (n : Nat) : ((pow10 n : Nat) : Rat) ≠ 0 :=
  Nat.cast_ne_zero.mpr (pow10_pos n).ne'

theorem pow10_cast_pos (n : Nat) : (0 : Rat) < (pow10 n : Nat) := Nat.cast_pos.mpr (pow10_pos n)

theorem toRat_eq_units (a : Decimal) : a.toRat = (a.units : Rat) / (pow10 maxScale : Nat) := by
  have h : ((pow10 a.scale * pow10 (maxScale - a.scale) : Int) : Rat) = (pow10 maxScale : Int) := by
    rw [pow10_mul_rest]
  push_cast at h
  rw [toRat_eq_div, units, div_eq_div_iff (pow10_ne_zero _) (pow10_ne_zero _)]
  push_cast
  rw [← h]
  ring

theorem isPositive_iff : a.isPositive = true ↔ 0 < a.toRat := by
  rw [isPositive, decide_eq_true_iff, toRat_eq_div, div_pos_iff_of_pos_right (pow10_cast_pos _),
    Int.cast_pos]

theorem isZero_iff : a.isZero = true ↔ a.toRat = 0 := by
  rw [isZero, beq_iff_eq, toRat_eq_div, div_eq_zero_iff, or_iff_left (pow10_ne_zero _),
    Int.cast_eq_zero]

theorem lt_iff : a < b ↔ a.toRat < b.toRat := by
  rw [toRat_eq_div, toRat_eq_div, div_lt_div_iff₀ (pow10_cast_pos _) (pow10_cast_pos _)]
  show a.mantissa * pow10 b.scale < b.mantissa * pow10 a.scale ↔ _
  rw [← Int.cast_lt (R := Rat)]
  push_cast
  rfl

theorem le_iff : a ≤ b ↔ a.toRat ≤ b.toRat := by
  rw [← not_lt (b := a.toRat), ← lt_iff]
  exact Int.not_lt.symm

theorem parts_of_ofParts? {m : Int} {s : Nat} (h : ofParts? m s = some c) :
    c.mantissa = m ∧ c.scale = s := by
  unfold ofParts? at h
  split at h
  · cases h
    exact ⟨rfl, rfl⟩
  · cases h

theorem ofParts?_of_le {m : Int} {s : Nat} (hm : m.natAbs ≤ maxMantissa) (hs : s ≤ maxScale) :
    ofParts? m s = some ⟨m, s, hm, hs⟩ := by
  rw [ofParts?, dif_pos ⟨hm, hs⟩]

theorem ofParts?_eq_none_iff {m : Int} {s : Nat} (hs : s ≤ maxScale) :
    ofParts? m s = none ↔ maxMantissa < m.natAbs := by
  rw [← Option.not_isSome_iff_eq_none, ofParts?_isSome_iff hs, Nat.not_le]

theorem toRat_reduceAt (m : Int) (hm : m.natAbs ≤ maxMantissa) (s : Nat) (hs : s ≤ maxScale) :
    (reduceAt m hm s hs).toRat = (m : Rat) / (pow10 s : Nat) := by
  induction s generalizing m with
  | zero => exact toRat_eq_div _
  | succ s ih =>
    unfold reduceAt
    split
    · rename_i hlast
      rw [ih, div_eq_div_iff (pow10_ne_zero _) (pow10_ne_zero _), pow10_add]
      have hm : (m : Rat) = (m / 10 : Int) * 10 := by
        exact_mod_cast (Int.ediv_mul_cancel (Int.dvd_of_emod_eq_zero hlast)).symm
      rw [hm, show pow10 1 = 10 from rfl]
      push_cast
      ring
    · exact toRat_eq_div _

@[simp] theorem toRat_reduce (a : Decimal) : a.reduce.toRat = a.toRat := by
  rw [reduce, toRat_reduceAt, toRat_eq_div]

/-! ## Moving the point -/

theorem toRat_mul_pow10 {places : Nat} (h : a.scale ≤ places) :
    a.toRat * (pow10 places : Nat) = ((a.mantissa * pow10 (places - a.scale) : Int) : Rat) := by
  have hsplit : pow10 places = pow10 a.scale * pow10 (places - a.scale) := by
    rw [← pow10_add, Nat.add_sub_cancel' h]
  have h1 := pow10_ne_zero a.scale
  rw [toRat_eq_div, hsplit]
  push_cast
  field_simp

theorem fits_int_iff : Fits (n : Rat) ↔ n.natAbs ≤ maxMantissa := by
  have h := fits_div_iff (n := n) Nat.one_pos
  rw [Nat.cast_one, div_one] at h
  rw [h]
  omega

/-- A number with its point moved to the right is a decimal with no more places, or else a whole
number that no decimal holds. -/
theorem moved_point (a : Decimal) (places : Nat) :
    (∃ b : Decimal, b.scale ≤ a.scale ∧ b.toRat = a.toRat * (pow10 places : Nat)) ∨
      ∃ n : Int, a.toRat * (pow10 places : Nat) = n ∧ ¬ Fits n := by
  rcases Nat.le_total places a.scale with hmany | hfew
  · left
    refine ⟨⟨a.mantissa, a.scale - places, a.mantissa_le, (Nat.sub_le _ _).trans a.scale_le⟩,
      Nat.sub_le _ _, ?_⟩
    have hsplit : pow10 a.scale = pow10 (a.scale - places) * pow10 places := by
      rw [← pow10_add, Nat.sub_add_cancel hmany]
    have h1 := pow10_ne_zero (a.scale - places)
    have h2 := pow10_ne_zero places
    rw [toRat_eq_div, toRat_eq_div, hsplit]
    push_cast
    field_simp
  · rw [toRat_mul_pow10 hfew]
    by_cases hm : (a.mantissa * pow10 (places - a.scale)).natAbs ≤ maxMantissa
    · left
      refine ⟨⟨_, 0, hm, by decide⟩, Nat.zero_le _, ?_⟩
      rw [toRat_eq_div, show pow10 0 = 1 from rfl, Nat.cast_one, div_one]
    · right
      exact ⟨_, rfl, fun hfits => hm (fits_int_iff.mp hfits)⟩

/-! ## Results that are rounded -/

/-- Half of the last place that a decimal can have. -/
def halfLastPlace : Rat := 1 / (2 * pow10 maxScale)

theorem halfLastPlace_pos : 0 < halfLastPlace :=
  div_pos one_pos (mul_pos two_pos (pow10_cast_pos _))

/-- What an exact number that is not below zero is rounded to: the nearest number of last places,
or else neither is below one and they differ by at most a half. -/
def Rounds (c : Decimal) (x : Rat) : Prop :=
  NearestEven c.units (x * (pow10 maxScale : Nat)) ∨
    (1 ≤ c.toRat ∧ 1 ≤ x ∧ |c.toRat - x| ≤ 1 / 2)

namespace Rounds

variable {x : Rat}

theorem of_eq (h : c.toRat = x) : c.Rounds x := by
  left
  rw [← h, toRat_eq_units, div_mul_cancel₀ _ (pow10_ne_zero _)]
  exact .self _

/-- A result lies above an even number of last places, if that is less than one, just if the exact
number lies more than half a last place above it. -/
theorem lt_iff (h : c.Rounds x) {t : Int} (ht : t % 2 = 0) (hsmall : t < pow10 maxScale) :
    (t : Rat) / (pow10 maxScale : Nat) < c.toRat ↔
      (t : Rat) / (pow10 maxScale : Nat) + halfLastPlace < x := by
  have hpos := pow10_cast_pos maxScale
  have hsum : (t : Rat) / (pow10 maxScale : Nat) + halfLastPlace =
      (t + 1 / 2) / (pow10 maxScale : Nat) := by
    rw [halfLastPlace]
    field_simp
  rcases h with hnear | ⟨hc, hx, _⟩
  · rw [toRat_eq_units, div_lt_div_iff_of_pos_right hpos, Int.cast_lt, hnear.lt_iff ht, hsum,
      div_lt_iff₀ hpos]
  · -- below one an even number of last places is at least two of them away from it
    have hbelow : (t : Rat) + 2 ≤ (pow10 maxScale : Nat) := by
      have heven : (pow10 maxScale : Int) % 2 = 0 := by decide
      have : t + 2 ≤ pow10 maxScale := by omega
      exact_mod_cast this
    rw [hsum, div_lt_iff₀ hpos, div_lt_iff₀ hpos]
    refine iff_of_true ?_ ?_
    · exact lt_of_lt_of_le (by linarith) (le_mul_of_one_le_left hpos.le hc)
    · exact lt_of_lt_of_le (by linarith) (le_mul_of_one_le_left hpos.le hx)

/-- A result vanishes just if the exact number is at most half a last place. -/
theorem pos_iff (h : c.Rounds x) : 0 < c.toRat ↔ halfLastPlace < x := by
  simpa using h.lt_iff (t := 0) rfl (by decide)

theorem nonneg (h : c.Rounds x) (hx : 0 ≤ x) : 0 ≤ c.toRat := by
  rcases h with hnear | ⟨hc, _, _⟩
  · have hpos := pow10_cast_pos maxScale
    obtain ⟨hlow, _⟩ := abs_le.mp hnear.near
    have hunits : (-1 : Rat) < c.units := by linarith [mul_nonneg hx hpos.le]
    have hunits : -1 < c.units := by exact_mod_cast hunits
    rw [toRat_eq_units]
    exact div_nonneg (Int.cast_nonneg (by omega)) hpos.le
  · linarith

/-- A result that does not vanish is off by no more than a factor of two. -/
theorem within_double (h : c.Rounds x) (hc : 0 < c.toRat) :
    c.toRat ≤ 2 * x ∧ x ≤ 2 * c.toRat := by
  rcases h with hnear | ⟨h1, h2, hoff⟩
  · have hpos := pow10_cast_pos maxScale
    have hone : (1 : Rat) ≤ c.units := by
      rw [toRat_eq_units, div_pos_iff_of_pos_right hpos, Int.cast_pos] at hc
      exact_mod_cast hc
    obtain ⟨hlow, hhigh⟩ := abs_le.mp hnear.near
    rw [toRat_eq_units, div_le_iff₀ hpos, mul_div_assoc', le_div_iff₀ hpos]
    constructor <;> linarith
  · obtain ⟨hlow, hhigh⟩ := abs_le.mp hoff
    constructor <;> linarith

end Rounds

/-- The nearest decimal has the most places, up to `scale`, with which it fits. -/
theorem places_of_nearest? {scale : Nat} (hs : scale ≤ maxScale) (h : nearest? n d scale = some c) :
    c.scale ≤ scale ∧ c.mantissa = Quotient.halfEven (n * pow10 c.scale) d ∧
      (c.scale < scale →
        maxMantissa < (Quotient.halfEven (n * pow10 (c.scale + 1)) d).natAbs) := by
  induction scale with
  | zero =>
    obtain ⟨hm, hscale⟩ := parts_of_ofParts? h
    refine ⟨Nat.le_of_eq hscale, ?_, fun hlt => by omega⟩
    rw [hm, hscale, show pow10 0 = 1 from rfl, Nat.cast_one, Int.mul_one]
  | succ s ih =>
    rw [nearest?, Option.orElse_eq_orElse, Option.orElse_eq_or, Option.or_eq_some_iff] at h
    rcases h with hfirst | ⟨hnone, hrest⟩
    · obtain ⟨hm, hscale⟩ := parts_of_ofParts? hfirst
      exact ⟨Nat.le_of_eq hscale, by rw [hm, hscale], fun hlt => by omega⟩
    · obtain ⟨hle, hm, hmore⟩ := ih (by omega) hrest
      refine ⟨by omega, hm, fun _ => ?_⟩
      rcases Nat.lt_or_eq_of_le hle with hlt | heq
      · exact hmore hlt
      · rw [heq]
        exact (ofParts?_eq_none_iff hs).mp hnone

/-- A number is off from its nearest decimal by at most half of the last place of that. -/
theorem abs_nearest?_sub_le (hd : 0 < d) {scale : Nat} (hs : scale ≤ maxScale)
    (h : nearest? n d scale = some c) : |c.toRat - n / d| ≤ 1 / (pow10 c.scale : Nat) / 2 := by
  obtain ⟨_, hm, _⟩ := places_of_nearest? hs h
  have hnear := (Quotient.nearestEven_halfEven (n * pow10 c.scale) hd).near
  rw [← hm] at hnear
  have hsame : c.toRat - n / d =
      (c.mantissa - (n * pow10 c.scale : Int) / d) / (pow10 c.scale : Nat) := by
    have hp := pow10_ne_zero c.scale
    rw [toRat_eq_div]
    push_cast
    field_simp
  have hp := pow10_cast_pos c.scale
  rw [hsame, abs_div, abs_of_pos hp, div_le_iff₀ hp, div_right_comm, div_mul_cancel₀ _ hp.ne']
  exact hnear

/-- A number that fits with so many places has at least as many in its nearest decimal. -/
theorem le_scale_of_nearest? (hd : 0 < d) {s scale : Nat} (hs : s ≤ scale)
    (hscale : scale ≤ maxScale) (hfits : (n * pow10 s).natAbs ≤ maxMantissa * d)
    (h : nearest? n d scale = some c) : s ≤ c.scale := by
  obtain ⟨_, _, hmore⟩ := places_of_nearest? hscale h
  by_contra hless
  have hbound : (n * pow10 (c.scale + 1)).natAbs ≤ maxMantissa * d := by
    refine le_trans ?_ hfits
    rw [Int.natAbs_mul, Int.natAbs_mul, Int.natAbs_natCast, Int.natAbs_natCast]
    exact Nat.mul_le_mul_left _ (Nat.pow_le_pow_right (by decide) (by omega))
  have := Quotient.natAbs_halfEven_le hd hbound
  have := hmore (by omega)
  omega

/-- A number whose nearest decimal has fewer places than it may is large. -/
theorem two_le_of_dropped (hd : 0 < d) (hn : 0 ≤ n) {t : Nat} (ht : t ≤ maxScale)
    (h : maxMantissa < (Quotient.halfEven (n * pow10 t) d).natAbs) : 2 ≤ (n : Rat) / d := by
  have hd' : (0 : Rat) < d := Nat.cast_pos.mpr hd
  have hlarge : (2 * maxMantissa + 1) * d ≤ 2 * (n * pow10 t).natAbs := by
    rw [← Nat.not_le, Quotient.natAbs_halfEven_le_max_iff hd] at h
    omega
  have hcast : ((2 * maxMantissa + 1) * d : Rat) ≤ 2 * (n * (pow10 t : Nat)) := by
    have habs : ((n * pow10 t).natAbs : Int) = n * pow10 t :=
      Int.natAbs_of_nonneg (Int.mul_nonneg hn (Int.natCast_nonneg _))
    have hint : (((2 * maxMantissa + 1) * d : Nat) : Int) ≤ 2 * (n * pow10 t) := by omega
    exact_mod_cast hint
  have hplaces : (n : Rat) * (pow10 t : Nat) ≤ n * (pow10 maxScale : Nat) :=
    mul_le_mul_of_nonneg_left (Nat.cast_le.mpr (Nat.pow_le_pow_right (by decide) ht))
      (Int.cast_nonneg hn)
  have hmax : 4 * ((pow10 maxScale : Nat) : Rat) * d ≤ (2 * maxMantissa + 1) * d := by
    refine mul_le_mul_of_nonneg_right ?_ hd'.le
    rw [cast_pow10]
    norm_num [maxScale, maxMantissa]
  have hpos := pow10_cast_pos maxScale
  rw [le_div_iff₀ hd']
  refine le_of_mul_le_mul_right ?_ hpos
  calc 2 * (d : Rat) * (pow10 maxScale : Nat) = 4 * (pow10 maxScale : Nat) * d / 2 := by ring
    _ ≤ 2 * (n * (pow10 maxScale : Nat)) / 2 := by linarith
    _ = n * (pow10 maxScale : Nat) := by ring

/-- A decimal of the most places rounds to the last of them. Otherwise the number is large. -/
theorem nearest?_cases (hd : 0 < d) (hn : 0 ≤ n) {scale : Nat} (hs : scale ≤ maxScale)
    (h : nearest? n d scale = some c) :
    (c.scale = scale ∧ c.mantissa = Quotient.halfEven (n * pow10 scale) d) ∨
      (1 ≤ c.toRat ∧ 1 ≤ (n : Rat) / d ∧ |c.toRat - n / d| ≤ 1 / 2) := by
  obtain ⟨hle, hm, hmore⟩ := places_of_nearest? hs h
  rcases Nat.eq_or_lt_of_le hle with heq | hlt
  · exact Or.inl ⟨heq, by rw [hm, heq]⟩
  right
  have hx := two_le_of_dropped hd hn (Nat.le_trans hlt hs) (hmore hlt)
  have hoff : |c.toRat - n / d| ≤ 1 / 2 := by
    have hone : (1 : Rat) ≤ (pow10 c.scale : Nat) := by exact_mod_cast pow10_pos c.scale
    have hplace : 1 / ((pow10 c.scale : Nat) : Rat) ≤ 1 := div_le_one_of_le₀ hone (by linarith)
    exact (abs_nearest?_sub_le hd hs h).trans (by linarith)
  obtain ⟨hlow, hhigh⟩ := abs_le.mp hoff
  exact ⟨by linarith, by linarith, hoff⟩

/-- The nearest decimal of the most places rounds to the last place. -/
theorem rounds_nearest? (hd : 0 < d) (hn : 0 ≤ n) (h : nearest? n d maxScale = some c) :
    c.Rounds ((n : Rat) / d) := by
  rcases nearest?_cases hd hn (Nat.le_refl _) h with ⟨hscale, hm⟩ | hlarge
  · left
    have hunits : c.units = Quotient.halfEven (n * pow10 maxScale) d := by
      rw [units, hm, hscale, Nat.sub_self, show pow10 0 = 1 from rfl, Nat.cast_one, Int.mul_one]
    have hnear := Quotient.nearestEven_halfEven (n * pow10 maxScale) hd
    rw [← hunits] at hnear
    push_cast at hnear
    rwa [div_mul_eq_mul_div]
  · exact Or.inr hlarge

/-- A decimal with few enough places is the nearest one to its own value. -/
theorem nearest?_exact (hd : 0 < d) {scale : Nat} (hscale : scale ≤ maxScale)
    (hs : a.scale ≤ scale) (hx : a.toRat = (n : Rat) / d) :
    ∃ c, nearest? n d scale = some c ∧ c.toRat = a.toRat := by
  have heq : n * pow10 a.scale = a.mantissa * d := by
    rw [toRat_eq_div, div_eq_div_iff (pow10_ne_zero _) (Nat.cast_ne_zero.mpr hd.ne')] at hx
    exact_mod_cast hx.symm
  have hplaces : (n * pow10 a.scale).natAbs ≤ maxMantissa * d := by
    rw [heq, Int.natAbs_mul, Int.natAbs_natCast]
    exact Nat.mul_le_mul_right d a.mantissa_le
  have hfits : n.natAbs ≤ maxMantissa * d := by
    refine le_trans ?_ hplaces
    rw [Int.natAbs_mul, Int.natAbs_natCast]
    exact Nat.le_mul_of_pos_right _ (pow10_pos _)
  obtain ⟨c, hc⟩ := Option.isSome_iff_exists.mp (nearest?_isSome hd hfits scale)
  refine ⟨c, hc, ?_⟩
  obtain ⟨_, hcm, _⟩ := places_of_nearest? hscale hc
  have hall := le_scale_of_nearest? hd hs hscale hplaces hc
  have hsplit : pow10 c.scale = pow10 a.scale * pow10 (c.scale - a.scale) := by
    rw [← pow10_add, Nat.add_sub_cancel' hall]
  have hwhole : n * pow10 c.scale = a.mantissa * pow10 (c.scale - a.scale) * d := by
    rw [hsplit, Nat.cast_mul, ← Int.mul_assoc, heq]
    ring
  rw [hwhole, Quotient.halfEven_exact _ hd] at hcm
  rw [hx, toRat_eq_div, hcm, div_eq_div_iff (pow10_ne_zero _) (Nat.cast_ne_zero.mpr hd.ne')]
  exact_mod_cast hwhole.symm

/-- A number that is at most a decimal with few enough places is rounded to no more. -/
theorem nearest?_le (hd : 0 < d) (hn : 0 ≤ n) {scale : Nat} (hs : b.scale ≤ scale)
    (hscale : scale ≤ maxScale) (hx : (n : Rat) / d ≤ b.toRat) (h : nearest? n d scale = some c) :
    c.toRat ≤ b.toRat := by
  have hd' : (0 : Rat) < d := Nat.cast_pos.mpr hd
  have hbound : n * pow10 b.scale ≤ b.mantissa * d := by
    rw [toRat_eq_div, div_le_div_iff₀ hd' (pow10_cast_pos _)] at hx
    exact_mod_cast hx
  obtain ⟨_, hcm, _⟩ := places_of_nearest? hscale h
  -- the bound fits with its own places, so what is at most the bound does too
  have hfits : (n * pow10 b.scale).natAbs ≤ maxMantissa * d := by
    have hmax : b.mantissa * d ≤ maxMantissa * d :=
      Int.mul_le_mul_of_nonneg_right (by have := b.mantissa_le; omega) (by omega)
    have hnonneg : 0 ≤ n * pow10 b.scale := Int.mul_nonneg hn (Int.natCast_nonneg _)
    rw [← Nat.cast_mul] at hmax
    omega
  have hall := le_scale_of_nearest? hd hs hscale hfits h
  have hsplit : pow10 c.scale = pow10 b.scale * pow10 (c.scale - b.scale) := by
    rw [← pow10_add, Nat.add_sub_cancel' hall]
  have hmantissa : c.mantissa ≤ b.mantissa * pow10 (c.scale - b.scale) := by
    rw [hcm]
    apply Quotient.halfEven_le hd
    calc n * pow10 c.scale = n * pow10 b.scale * pow10 (c.scale - b.scale) := by
          rw [hsplit, Nat.cast_mul, Int.mul_assoc]
      _ ≤ b.mantissa * d * pow10 (c.scale - b.scale) :=
          Int.mul_le_mul_of_nonneg_right hbound (Int.natCast_nonneg _)
      _ = b.mantissa * pow10 (c.scale - b.scale) * d := by ring
  rw [toRat_eq_div, toRat_eq_div, div_le_div_iff₀ (pow10_cast_pos _) (pow10_cast_pos _), hsplit]
  have hfinal : c.mantissa * pow10 b.scale ≤
      b.mantissa * (pow10 b.scale * pow10 (c.scale - b.scale)) := by
    calc c.mantissa * pow10 b.scale
        ≤ b.mantissa * pow10 (c.scale - b.scale) * pow10 b.scale :=
          Int.mul_le_mul_of_nonneg_right hmantissa (Int.natCast_nonneg _)
      _ = b.mantissa * (pow10 b.scale * pow10 (c.scale - b.scale)) := by ring
  exact_mod_cast hfinal

/-! ## Products and quotients -/

theorem mantissa_nonneg_iff : 0 ≤ a.mantissa ↔ 0 ≤ a.toRat := by
  rw [toRat_eq_div, le_div_iff₀ (pow10_cast_pos _), zero_mul, Int.cast_nonneg_iff]

theorem mantissa_pos_iff : 0 < a.mantissa ↔ 0 < a.toRat := by
  rw [← isPositive_iff, isPositive, decide_eq_true_iff]

/-- A product of numbers that are not below zero rounds the exact one. -/
theorem rounds_mul? (ha : 0 ≤ a.toRat) (hb : 0 ≤ b.toRat) (h : a.mul? b = some c) :
    c.Rounds (a.toRat * b.toRat) := by
  unfold mul? at h
  split at h
  · rename_i hzero
    cases h
    apply Rounds.of_eq
    rw [toRat_zero, toRat_mul_of_isZero hzero]
  · have hn : 0 ≤ a.mantissa * b.mantissa :=
      Int.mul_nonneg (mantissa_nonneg_iff.mpr ha) (mantissa_nonneg_iff.mpr hb)
    rw [toRat_mul_eq]
    rcases Nat.le_total maxScale (a.scale + b.scale) with hmany | hfew
    · rw [Nat.min_eq_left hmany] at h
      exact rounds_nearest? (pow10_pos _) hn h
    · rw [Nat.min_eq_right hfew] at h
      rcases nearest?_cases (pow10_pos _) hn hfew h with ⟨hscale, hm⟩ | hlarge
      · rw [Quotient.halfEven_exact _ (pow10_pos _)] at hm
        exact .of_eq (by rw [toRat_eq_div, hm, hscale])
      · exact Or.inr hlarge

/-- A product with a number between zero and one is no larger than the other factor. -/
theorem mul?_le (ha : 0 ≤ a.toRat) (hb : 0 ≤ b.toRat) (hone : b.toRat ≤ 1)
    (h : a.mul? b = some c) : c.toRat ≤ a.toRat := by
  unfold mul? at h
  split at h
  · cases h
    rw [toRat_zero]
    exact ha
  · have hn : 0 ≤ a.mantissa * b.mantissa :=
      Int.mul_nonneg (mantissa_nonneg_iff.mpr ha) (mantissa_nonneg_iff.mpr hb)
    refine nearest?_le (pow10_pos _) hn (Nat.le_min.mpr ⟨a.scale_le, Nat.le_add_right _ _⟩)
      (Nat.min_le_left _ _) ?_ h
    rw [← toRat_mul_eq]
    exact mul_le_of_le_one_right ha hone

theorem toRat_div_eq (a : Decimal) (hb : 0 < b.toRat) : a.toRat / b.toRat =
    ((a.mantissa * pow10 b.scale * b.mantissa.sign : Int) : Rat) /
      (pow10 a.scale * b.mantissa.natAbs : Nat) := by
  have hpos := mantissa_pos_iff.mpr hb
  have hne : (b.mantissa : Rat) ≠ 0 := Int.cast_ne_zero.mpr hpos.ne'
  have hnat : (b.mantissa.natAbs : Rat) = b.mantissa := by
    rw [← Int.cast_natCast, Int.natAbs_of_nonneg hpos.le]
  have h1 := pow10_ne_zero a.scale
  have h2 := pow10_ne_zero b.scale
  rw [Int.sign_eq_one_of_pos hpos, toRat_eq_div, toRat_eq_div]
  push_cast
  rw [hnat]
  field_simp

/-- A quotient is one of these: zero, exact, or the nearest decimal with the most places. -/
theorem div?_cases (hb : 0 < b.toRat) (h : a.div? b = some c) :
    c.toRat = a.toRat / b.toRat ∨ ∃ e, c = e.reduce ∧
      nearest? (a.mantissa * pow10 b.scale * b.mantissa.sign) (pow10 a.scale * b.mantissa.natAbs)
        maxScale = some e := by
  unfold div? at h
  split at h
  · cases h
  split at h
  · rename_i hz
    cases h
    left
    rw [toRat_zero, toRat_of_isZero hz, zero_div]
  split at h
  · rename_i hwhole
    left
    obtain ⟨hm, hs⟩ := parts_of_ofParts? h
    have hne : (b.mantissa : Rat) ≠ 0 := Int.cast_ne_zero.mpr (mantissa_pos_iff.mpr hb).ne'
    have hq : (a.mantissa : Rat) = (a.mantissa / b.mantissa : Int) * b.mantissa := by
      exact_mod_cast (Int.ediv_mul_cancel (Int.dvd_of_emod_eq_zero hwhole.2)).symm
    have hsplit : ((pow10 a.scale : Nat) : Rat) = pow10 (a.scale - b.scale) * pow10 b.scale := by
      rw [← Nat.cast_mul, ← pow10_add, Nat.sub_add_cancel hwhole.1]
    have h1 := pow10_ne_zero (a.scale - b.scale)
    have h2 := pow10_ne_zero b.scale
    rw [toRat_eq_div, toRat_eq_div, toRat_eq_div, hm, hs, hsplit, hq]
    field_simp
  · obtain ⟨e, he, rfl⟩ := Option.map_eq_some_iff.mp h
    exact Or.inr ⟨e, rfl, he⟩

theorem div_parts_pos (a : Decimal) (hb : 0 < b.toRat) : 0 < pow10 a.scale * b.mantissa.natAbs := by
  have hpos := mantissa_pos_iff.mpr hb
  exact Nat.mul_pos (pow10_pos _) (Int.natAbs_pos.mpr hpos.ne')

theorem div_parts_nonneg (ha : 0 ≤ a.toRat) (hb : 0 < b.toRat) :
    0 ≤ a.mantissa * pow10 b.scale * b.mantissa.sign := by
  have hpos := mantissa_pos_iff.mpr hb
  rw [Int.sign_eq_one_of_pos hpos, Int.mul_one]
  exact Int.mul_nonneg (mantissa_nonneg_iff.mpr ha) (Int.natCast_nonneg _)

/-- A quotient of a number that is not below zero by one above it rounds the exact one. -/
theorem rounds_div? (ha : 0 ≤ a.toRat) (hb : 0 < b.toRat) (h : a.div? b = some c) :
    c.Rounds (a.toRat / b.toRat) := by
  rcases div?_cases hb h with hexact | ⟨e, rfl, he⟩
  · exact .of_eq hexact
  · have hround := rounds_nearest? (div_parts_pos a hb) (div_parts_nonneg ha hb) he
    rw [← toRat_div_eq a hb] at hround
    have hunits : e.reduce.units = e.units := by
      have h := toRat_reduce e
      rw [toRat_eq_units, toRat_eq_units, div_left_inj' (pow10_ne_zero _)] at h
      exact_mod_cast h
    unfold Rounds
    rw [hunits, toRat_reduce]
    exact hround

/-- A quotient that is at most a decimal is rounded to no more. -/
theorem div?_le {x : Decimal} (ha : 0 ≤ a.toRat) (hb : 0 < b.toRat)
    (hx : a.toRat / b.toRat ≤ x.toRat) (h : a.div? b = some c) : c.toRat ≤ x.toRat := by
  rcases div?_cases hb h with hexact | ⟨e, rfl, he⟩
  · rw [hexact]
    exact hx
  · rw [toRat_div_eq a hb] at hx
    rw [toRat_reduce]
    exact nearest?_le (div_parts_pos a hb) (div_parts_nonneg ha hb) x.scale_le (Nat.le_refl _) hx he

/-- A quotient that is a decimal is not rounded. -/
theorem div?_exact {x : Decimal} (hb : 0 < b.toRat) (hx : x.toRat = a.toRat / b.toRat) :
    ∃ c, a.div? b = some c ∧ c.toRat = x.toRat := by
  obtain ⟨e, he, hex⟩ := nearest?_exact (div_parts_pos a hb) (Nat.le_refl _) x.scale_le
    (hx.trans (toRat_div_eq a hb))
  have hsome : ∃ c, a.div? b = some c := by
    have hbz : b.isZero = false := by
      rw [← Bool.not_eq_true, isZero_iff]
      exact hb.ne'
    unfold div?
    rw [hbz, he]
    split
    · contradiction
    split
    · exact ⟨_, rfl⟩
    split
    · have hm : (a.mantissa / b.mantissa).natAbs ≤ maxMantissa :=
        (Int.natAbs_ediv_le_natAbs _ _).trans a.mantissa_le
      exact ⟨_, ofParts?_of_le hm (by have := a.scale_le; omega)⟩
    · exact ⟨_, rfl⟩
  obtain ⟨c, hc⟩ := hsome
  refine ⟨c, hc, ?_⟩
  rcases div?_cases hb hc with hexact | ⟨e', rfl, he'⟩
  · rw [hexact, hx]
  · rw [he] at he'
    cases he'
    rw [toRat_reduce, hex]

/-- A product that is a decimal with no more places than its factors have is not rounded. -/
theorem mul?_exact {x : Decimal} (hs : x.scale ≤ a.scale + b.scale)
    (hx : x.toRat = a.toRat * b.toRat) : ∃ c, a.mul? b = some c ∧ c.toRat = x.toRat := by
  unfold mul?
  split
  · rename_i hzero
    refine ⟨zero, rfl, ?_⟩
    rw [hx, toRat_zero, toRat_mul_of_isZero hzero]
  · exact nearest?_exact (pow10_pos _) (Nat.min_le_left _ _) (Nat.le_min.mpr ⟨x.scale_le, hs⟩)
      (hx.trans (toRat_mul_eq a b))

theorem ratio_eq_ok_iff : a.ratio b = .ok c ↔ a.div? b = some c := by
  unfold ratio
  split <;> simp_all

theorem product_eq_ok_iff : a.product b = .ok c ↔ a.mul? b = some c := by
  unfold product
  split <;> simp_all

end Decimal

end OfferDesk
