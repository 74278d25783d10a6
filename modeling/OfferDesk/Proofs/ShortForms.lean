-- Short forms. A number without trailing zeros after the point is known by its value, so two
-- numbers of one value are written alike. A count of drops has a short form as units, and that is
-- what its quotient by a million comes to.
import OfferDesk.Proofs.WireAmounts

namespace OfferDesk.Decimal

variable {a b : Decimal}

/-- No trailing zeros after the point. -/
def Short (a : Decimal) : Prop := a.scale = 0 ∨ a.mantissa % 10 ≠ 0

theorem short_reduceAt (m : Int) (hm : m.natAbs ≤ maxMantissa) (s : Nat) (hs : s ≤ maxScale) :
    (reduceAt m hm s hs).Short := by
  induction s generalizing m with
  | zero => exact Or.inl rfl
  | succ s ih =>
    unfold reduceAt
    split
    · exact ih _ _ _
    · rename_i hlast
      exact Or.inr hlast

theorem short_reduce (a : Decimal) : a.reduce.Short := short_reduceAt _ _ _ _

/-- Of two numbers with one value the one with more places has zeros at its end. -/
theorem scale_le_of_toRat_eq (ha : a.Short) (h : a.toRat = b.toRat) : a.scale ≤ b.scale := by
  by_contra hlt
  have hsplit : pow10 a.scale = pow10 b.scale * (pow10 (a.scale - b.scale - 1) * 10) := by
    rw [show 10 = pow10 1 from rfl, ← pow10_add, ← pow10_add]
    congr 1
    omega
  have hvalue : a.mantissa = b.mantissa * pow10 (a.scale - b.scale - 1) * 10 := by
    rw [toRat_eq_div, toRat_eq_div, div_eq_div_iff (pow10_ne_zero _) (pow10_ne_zero _), hsplit] at h
    have h1 := pow10_ne_zero b.scale
    push_cast at h
    have h : (a.mantissa : Rat) = b.mantissa * pow10 (a.scale - b.scale - 1) * 10 := by
      apply mul_right_cancel₀ h1
      rw [h]
      ring
    exact_mod_cast h
  rcases ha with hzero | hlast
  · omega
  · omega

/-- A number without trailing zeros is known by its value. -/
theorem Short.eq (ha : a.Short) (hb : b.Short) (h : a.toRat = b.toRat) : a = b := by
  have hscale := Nat.le_antisymm (scale_le_of_toRat_eq ha h) (scale_le_of_toRat_eq hb h.symm)
  obtain ⟨m, s, hm, hs⟩ := a
  obtain ⟨n, t, hn, ht⟩ := b
  obtain rfl : s = t := hscale
  rw [toRat_eq_div, toRat_eq_div, div_left_inj' (pow10_ne_zero _), Int.cast_inj] at h
  obtain rfl : m = n := h
  rfl

theorem reduce_eq_iff : a.reduce = b.reduce ↔ a.toRat = b.toRat := by
  constructor
  · intro h
    rw [← toRat_reduce a, h, toRat_reduce]
  · intro h
    exact a.short_reduce.eq b.short_reduce (by rw [toRat_reduce, toRat_reduce, h])

/-- Numbers of one value are written alike. -/
theorem plainText_congr (h : a.toRat = b.toRat) : a.plainText = b.plainText := by
  rw [plainText, plainText, reduce_eq_iff.mpr h]

/-! ## Drops -/

theorem short_of_div? {c : Decimal} (hb : b.scale = a.scale) (h : a.div? b = some c) : c.Short := by
  unfold div? at h
  split at h
  · cases h
  split at h
  · cases h
    exact Or.inl rfl
  split at h
  · obtain ⟨_, hs⟩ := parts_of_ofParts? h
    exact Or.inl (by omega)
  · obtain ⟨e, _, rfl⟩ := Option.map_eq_some_iff.mp h
    exact e.short_reduce

/-- So many drops, divided by the drops in a unit, are so many millionths: the quotient exists and
is not rounded. -/
theorem div?_dropsPerUnit (h : a.scale = 0) : a.div? dropsPerUnit = some a.millionths := by
  let x : Decimal := ⟨a.mantissa, 6, a.mantissa_le, by decide⟩
  have hx : x.toRat = a.toRat / dropsPerUnit.toRat := by
    rw [toRat_dropsPerUnit, toRat_of_whole h]
    exact toRat_eq_div x
  obtain ⟨c, hc, hcx⟩ := div?_exact (by rw [toRat_dropsPerUnit]; exact pow10_cast_pos 6) hx
  have hshort : c.Short := short_of_div? h.symm hc
  rw [hc, hshort.eq (short_reduce x) (by rw [hcx, toRat_reduce])]
  rfl

end OfferDesk.Decimal
