-- Quotients rounded to whole numbers, with the two ways of settling a tie that amounts need.
namespace OfferDesk.Quotient

/-- The whole number nearest to `n / d`; of two that are equally near, the even one. -/
def halfEven (n : Int) (d : Nat) : Int :=
  let q := n / (d : Int)
  let r := n % (d : Int)
  if 2 * r < d then q
  else if (d : Int) < 2 * r then q + 1
  else if q % 2 = 0 then q
  else q + 1

/-- The whole number nearest to `n / d`; of two that are equally near, the one farther from
zero. -/
def halfAway (n : Int) (d : Nat) : Int :=
  let q := n / (d : Int)
  let r := n % (d : Int)
  if 2 * r < d then q
  else if (d : Int) < 2 * r then q + 1
  else if n < 0 then q
  else q + 1

/-! ## Both stay within half a unit -/

/-- A rounding step that goes to the floor below the middle and to the next number above it
stays within half a unit of the quotient. -/
theorem near_of_floor {n : Int} {d : Nat} (hd : 0 < d) {x : Int}
    (h : (x = n / (d : Int) ∧ 2 * (n % (d : Int)) ≤ d) ∨
      (x = n / (d : Int) + 1 ∧ (d : Int) ≤ 2 * (n % (d : Int)))) :
    2 * (x * d - n).natAbs ≤ d := by
  have hdiv := Int.mul_ediv_add_emod n d
  have hr := Int.emod_nonneg n (b := (d : Int)) (by omega)
  have hlt := Int.emod_lt_of_pos n (b := (d : Int)) (by omega)
  rcases h with ⟨hx, hr2⟩ | ⟨hx, hr2⟩
  · have : x * d - n = -(n % (d : Int)) := by
      rw [hx, Int.mul_comm]; omega
    omega
  · have : x * d - n = d - n % (d : Int) := by
      rw [hx, Int.add_mul, Int.one_mul, Int.mul_comm]; omega
    omega

theorem halfEven_near (n : Int) {d : Nat} (hd : 0 < d) :
    2 * (halfEven n d * d - n).natAbs ≤ d := by
  apply near_of_floor hd
  unfold halfEven
  dsimp only
  split
  · left; exact ⟨rfl, by omega⟩
  · split
    · right; exact ⟨rfl, by omega⟩
    · split
      · left; exact ⟨rfl, by omega⟩
      · right; exact ⟨rfl, by omega⟩

theorem halfAway_near (n : Int) {d : Nat} (hd : 0 < d) :
    2 * (halfAway n d * d - n).natAbs ≤ d := by
  apply near_of_floor hd
  unfold halfAway
  dsimp only
  split
  · left; exact ⟨rfl, by omega⟩
  · split
    · right; exact ⟨rfl, by omega⟩
    · split
      · left; exact ⟨rfl, by omega⟩
      · right; exact ⟨rfl, by omega⟩

/-- A number within half a unit of a quotient is no larger than the dividend. -/
theorem natAbs_le_of_near {n x : Int} {d : Nat} (hd : 0 < d)
    (h : 2 * (x * d - n).natAbs ≤ d) : x.natAbs ≤ n.natAbs := by
  have hx : (x * d).natAbs = x.natAbs * d := by rw [Int.natAbs_mul, Int.natAbs_natCast]
  have h2 : 2 * (x.natAbs * d) ≤ 2 * n.natAbs + d := by omega
  rcases Nat.eq_zero_or_pos x.natAbs with h0 | h0
  · omega
  · obtain ⟨e, rfl⟩ : ∃ e, d = e + 1 := ⟨d - 1, by omega⟩
    have he : e ≤ x.natAbs * e := Nat.le_mul_of_pos_left e h0
    rw [Nat.mul_add, Nat.mul_one] at h2
    omega

end OfferDesk.Quotient
